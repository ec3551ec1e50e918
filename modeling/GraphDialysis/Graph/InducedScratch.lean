import GraphDialysis.Graph.Induced
import GraphDialysis.Lib.Interleaving

/-! `Graph.inducedGraphOnly`: induced subgraphs through an old-to-new map that the thread keeps between
    its calls. A call marks its vertices in the map, reads the rows of the subgraph through it and
    takes its marks back. `marked` is what the map holds in between, so a call finds the map as the
    one before found it, and the rows are those of `induced` (`foldl_call`). The threads have maps of
    their own, so their calls may overlap in any way. -/

namespace Dialysis.Graph
open Lib

/-- What a thread holds: its entry of `inducedScratch`, the rows of `newAdj` so far, and the graphs
    its calls have returned. -/
structure Thread where
  inducedScratch : Option (List ℤ)
  newAdj : List (List ℤ)
  returned : List Arrays

/-- The accesses of a call to memory, in the order of the source: the buffer is fetched, the vertices
    are marked, the rows are built, the marks are taken back, the graph is returned. -/
inductive Access (n : ℕ)
  | fetch
  | mark (newId : ℕ) (old : Fin n)
  | row (old : Fin n)
  | unmark (old : Fin n)
  | ret (verts : VertexList n)

/-- A call. -/
def inducedGraphOnly {n : ℕ} (verts : VertexList n) : List (Access n) :=
  .fetch :: verts.1.zipIdx.map (fun p => .mark p.2 p.1) ++ verts.1.map .row ++ verts.1.map .unmark ++
    [.ret verts]

/-- `buf == null || buf.size != n` asks for a new buffer. -/
def fetched (n : ℕ) (buf : Option (List ℤ)) : List ℤ :=
  match buf with
  | none => List.replicate n (-1)
  | some buf => if buf.length ≠ n then List.replicate n (-1) else buf

variable (g : Graph)

/-- The row of `old` through the map: the neighbours with an entry, by their new ids, sorted. -/
def scratchRow (oldToNew : List ℤ) (old : Fin g.n) : List ℤ :=
  (((g.adj old).map fun w => oldToNew.getD w.1 (-1)).filter (0 ≤ ·)).insertionSort (· ≤ ·)

def access (t : Thread) : Access g.n → Thread
  | .fetch => { t with inducedScratch := some (fetched g.n t.inducedScratch), newAdj := [] }
  | .mark newId old => { t with inducedScratch := t.inducedScratch.map (·.set old.1 newId) }
  | .row old => { t with newAdj := t.newAdj ++ [g.scratchRow (t.inducedScratch.getD []) old] }
  | .unmark old => { t with inducedScratch := t.inducedScratch.map (·.set old.1 (-1)) }
  | .ret verts =>
    { t with returned := t.returned ++ [⟨verts.1.length, t.newAdj, verts.1.map g.names⟩] }

/-- A thread that has made no call. -/
def newThread : Thread := ⟨none, [], []⟩

/-- Between calls: no buffer yet, or one without marks. -/
def Clean (n : ℕ) (t : Thread) : Prop :=
  t.inducedScratch = none ∨ t.inducedScratch = some (List.replicate n (-1))

/-! ### What the map holds -/

section
variable {n : ℕ}

/-- The map when the vertices `done` are marked. -/
def marked (verts done : List (Fin n)) : List ℤ :=
  List.ofFn fun w => if w ∈ done then (verts.idxOf w : ℤ) else -1

theorem marked_nil (verts : List (Fin n)) : marked verts [] = List.replicate n (-1) := by
  simp [marked]

theorem set_ofFn (f : Fin n → ℤ) (i : Fin n) (x : ℤ) :
    (List.ofFn f).set i.1 x = List.ofFn (Function.update f i x) := by
  refine List.ext_getElem (by simp) fun k hk _ => ?_
  rw [List.getElem_set, List.getElem_ofFn, List.getElem_ofFn]
  by_cases h : i.1 = k
  · subst h
    simp
  · rw [if_neg h, Function.update_of_ne fun he => h (congrArg Fin.val he).symm]

theorem set_marked {verts done : List (Fin n)} {old : Fin n} :
    (marked verts done).set old.1 (verts.idxOf old) = marked verts (done ++ [old]) := by
  rw [marked, set_ofFn, marked]
  refine congrArg List.ofFn (funext fun w => ?_)
  rcases eq_or_ne w old with rfl | hw
  · simp
  · simp [hw]

theorem set_unmarked {verts rest : List (Fin n)} {old : Fin n} (h : old ∉ rest) :
    (marked verts (old :: rest)).set old.1 (-1) = marked verts rest := by
  rw [marked, set_ofFn, marked]
  refine congrArg List.ofFn (funext fun w => ?_)
  rcases eq_or_ne w old with rfl | hw
  · simp [h]
  · simp [hw]

theorem getD_marked {verts done : List (Fin n)} (w : Fin n) :
    (marked verts done).getD w.1 (-1) = if w ∈ done then (verts.idxOf w : ℤ) else -1 := by
  rw [marked, List.getD_eq_getElem?_getD, List.getElem?_ofFn, dif_pos w.2, Option.getD_some]

end

/-! ### The accesses of a call -/

section
variable {g}

/-- A row read through the finished map is the row of the induced subgraph. -/
theorem scratchRow_marked (verts : VertexList g.n) (i : Fin verts.1.length) :
    g.scratchRow (marked verts.1 verts.1) (verts.1.get i) =
      ((g.induced verts).adj i).map fun w => (w.1 : ℤ) := by
  have hentry : ∀ w : Fin g.n, (Option.guard (0 ≤ ·) ((marked verts.1 verts.1).getD w.1 (-1)) : Option ℤ) =
      (oldToNew verts w).map fun j => (j.1 : ℤ) := by
    intro w
    rw [getD_marked, oldToNew]
    by_cases hw : w ∈ verts.1
    · simp [hw, Option.guard]
    · simp [hw, Option.guard]
  have hread : (((g.adj (verts.1.get i)).map fun w => (marked verts.1 verts.1).getD w.1 (-1)).filter
      (0 ≤ ·)) = ((g.adj (verts.1.get i)).filterMap (oldToNew verts)).map fun j => (j.1 : ℤ) := by
    rw [List.map_filterMap, ← List.filterMap_eq_filter, List.filterMap_map]
    exact List.filterMap_congr fun w _ => hentry w
  rw [scratchRow, hread]
  exact (List.map_insertionSort (· ≤ ·) (· ≤ ·) (fun j : Fin verts.1.length => (j.1 : ℤ)) _
    fun a _ b _ => Nat.cast_le.symm).symm

variable {t : Thread}

theorem foldl_mark {verts : List (Fin g.n)} (hnodup : verts.Nodup) : ∀ (rest done : List (Fin g.n))
    (t : Thread), done ++ rest = verts → t.inducedScratch = some (marked verts done) →
    ((rest.zipIdx done.length).map fun p => Access.mark p.2 p.1).foldl g.access t =
      { t with inducedScratch := some (marked verts verts) }
  | [], done, t, hsplit, ht => by
    rw [List.append_nil] at hsplit
    subst hsplit
    rw [← ht]
    rfl
  | old :: rest, done, t, hsplit, ht => by
    have hidx : done.length = verts.idxOf old := by
      rw [← hsplit, List.idxOf_append_of_notMem, List.idxOf_cons_self, Nat.add_zero]
      intro hmem
      rw [← hsplit] at hnodup
      exact (List.nodup_append.mp hnodup).2.2 _ hmem _ List.mem_cons_self rfl
    have hnext := foldl_mark hnodup rest (done ++ [old])
      { t with inducedScratch := some (marked verts (done ++ [old])) } (by simpa using hsplit) rfl
    rw [List.length_append, List.length_singleton] at hnext
    rw [List.zipIdx_cons, List.map_cons, List.foldl_cons, access, ht, Option.map_some, hidx, set_marked,
      ← hidx]
    exact hnext

theorem foldl_row (buf : List ℤ) : ∀ (rest : List (Fin g.n)) (t : Thread),
    t.inducedScratch = some buf → (rest.map Access.row).foldl g.access t =
      { t with newAdj := t.newAdj ++ rest.map (g.scratchRow buf) }
  | [], t, _ => by simp
  | old :: rest, t, ht => by
    have hrow : g.access t (.row old) = { t with newAdj := t.newAdj ++ [g.scratchRow buf old] } := by
      rw [access, ht, Option.getD_some]
    rw [List.map_cons, List.foldl_cons, hrow,
      foldl_row buf rest { t with newAdj := t.newAdj ++ [g.scratchRow buf old] } ht]
    simp

theorem foldl_unmark {verts : List (Fin g.n)} : ∀ (rest : List (Fin g.n)) (t : Thread), rest.Nodup →
    t.inducedScratch = some (marked verts rest) → (rest.map Access.unmark).foldl g.access t =
      { t with inducedScratch := some (List.replicate g.n (-1)) }
  | [], t, _, ht => by
    rw [← marked_nil verts, ← ht]
    rfl
  | old :: rest, t, hnodup, ht => by
    rw [List.nodup_cons] at hnodup
    rw [List.map_cons, List.foldl_cons, access, ht, Option.map_some, set_unmarked hnodup.1,
      foldl_unmark rest _ hnodup.2 rfl]

theorem fetched_of_clean (h : Clean g.n t) : fetched g.n t.inducedScratch = List.replicate g.n (-1) := by
  rcases h with h | h <;> simp [fetched, h]

/-- Reading something off every vertex of the list is reading it off every new id. -/
theorem map_eq_ofFn {β : Type*} (verts : VertexList g.n) (f : Fin g.n → β) :
    verts.1.map f = List.ofFn fun i => f (verts.1.get i) := by
  conv_lhs => rw [← List.ofFn_get verts.1]
  exact List.map_ofFn

theorem arrays_induced (verts : VertexList g.n) : (g.induced verts).arrays =
    ⟨verts.1.length, verts.1.map (g.scratchRow (marked verts.1 verts.1)), verts.1.map g.names⟩ := by
  rw [map_eq_ofFn, map_eq_ofFn, arrays]
  refine congrArg (fun adj => Arrays.mk _ adj _) (congrArg List.ofFn (funext fun i => ?_))
  exact (scratchRow_marked verts i).symm

/-- A call on a clean buffer returns the induced subgraph and leaves the buffer clean. -/
theorem foldl_call (verts : VertexList g.n) (h : Clean g.n t) :
    ((inducedGraphOnly verts).foldl g.access t).returned = t.returned ++ [(g.induced verts).arrays] ∧
      Clean g.n ((inducedGraphOnly verts).foldl g.access t) := by
  have hfetch : g.access t .fetch =
      { t with inducedScratch := some (marked verts.1 []), newAdj := [] } := by
    rw [access, fetched_of_clean h, marked_nil]
  have hmark := foldl_mark verts.2 verts.1 []
    { t with inducedScratch := some (marked verts.1 []), newAdj := [] } rfl rfl
  rw [List.length_nil] at hmark
  rw [inducedGraphOnly, List.foldl_append, List.foldl_append, List.foldl_append, List.foldl_cons,
    List.foldl_nil, List.foldl_cons, hfetch, hmark, foldl_row (marked verts.1 verts.1) verts.1 _ rfl,
    foldl_unmark verts.1 _ verts.2 rfl, arrays_induced]
  exact ⟨rfl, Or.inr rfl⟩

/-- Call after call. -/
theorem foldl_calls : ∀ (calls : List (VertexList g.n)) (t : Thread), Clean g.n t →
    ((calls.flatMap inducedGraphOnly).foldl g.access t).returned =
        t.returned ++ calls.map (fun verts => (g.induced verts).arrays) ∧
      Clean g.n ((calls.flatMap inducedGraphOnly).foldl g.access t)
  | [], t, h => by simpa using h
  | verts :: calls, t, h => by
    obtain ⟨hret, hclean⟩ := foldl_call verts h
    obtain ⟨hret', hclean'⟩ := foldl_calls calls _ hclean
    rw [List.flatMap_cons, List.foldl_append]
    refine ⟨?_, hclean'⟩
    rw [hret', hret, List.append_assoc]
    rfl

end

/-- However the calls of several threads overlap, a thread gets from its calls what `induced` returns,
    and between two calls its buffer has no marks. -/
theorem inducedGraphOnly_eq_induced (g : Graph) {T : Type*} [DecidableEq T]
    (events : List (T × Access g.n)) (thread : T) (calls : List (VertexList g.n))
    (h : eventsOf thread events = calls.flatMap inducedGraphOnly) :
    (runAll g.access (fun _ => newThread) events thread).returned =
        calls.map (fun verts => (g.induced verts).arrays) ∧
      ∀ buf, (runAll g.access (fun _ => newThread) events thread).inducedScratch = some buf →
        buf = List.replicate g.n (-1) := by
  rw [runAll_apply, h]
  obtain ⟨hret, hclean⟩ := foldl_calls calls newThread (Or.inl rfl)
  refine ⟨hret, fun buf hbuf => ?_⟩
  rcases hclean with hnone | hsome
  · rw [hnone] at hbuf
    cases hbuf
  · rw [hsome] at hbuf
    exact (Option.some.inj hbuf).symm

/-- Two threads take turns on the path 0-1-2: one call on 1, 2, the other on 0, 1. -/
theorem inducedGraphOnly_eq_induced_path :
    (runAll (ofEdges 3 [(0, 1), (1, 2)]).access (fun _ => newThread)
      (((inducedGraphOnly (n := 3) ⟨[1, 2], by decide⟩).zip
        (inducedGraphOnly (n := 3) ⟨[0, 1], by decide⟩)).flatMap fun p => [(true, p.1), (false, p.2)])
      true).returned = [⟨2, [[1], [0]], ["1", "2"]⟩] :=
  (inducedGraphOnly_eq_induced (ofEdges 3 [(0, 1), (1, 2)]) _ true
    [(⟨[1, 2], by decide⟩ : VertexList 3)] rfl).1

end Dialysis.Graph
