import GraphDialysis.Graph.Csr
import GraphDialysis.Lib.Splitter
import Mathlib.Data.Finset.Sort

/-! `paige_tarjan_wl1.cpp`: the native colour refinement. One round pops a class `cur`, counts for
    every vertex its neighbours in `cur`, splits the classes whose counts vary, in ascending order
    of their ids, and clears the counters again.

    The counters are scratch space that survives from round to round, a class is a vector from which
    moved vertices are swapped out, and the split is done by numbering degrees one at a time. Each
    loop gets a lemma that says what it computes in terms of the colouring alone (`Counted`,
    `Allocated`, `Moved`); together they say that a round is the step of the abstract refinement
    (`round_rep`), whose run rule then gives `run1WL_spec`. -/

namespace Dialysis.Refinement
open Lib
variable {n : ℕ}

/-- The local variables of `run1WL`; the vectors indexed by class ids are total functions. -/
structure Kernel (n : ℕ) where
  coloring : Fin n → ℕ
  cd : Fin n → ℕ
  cc : ℕ → List (Fin n)
  pdcc : ℕ → List (Fin n)
  maxCD : ℕ → ℕ
  minCD : ℕ → ℕ
  inStack : ℕ → Bool
  lastColor : ℕ
  stk : List ℕ

namespace Kernel

/-- One more neighbour of `w` is in the splitter. -/
def touch (p : Kernel n × Finset ℕ) (w : Fin n) : Kernel n × Finset ℕ :=
  let k := p.1
  let c := k.coloring w
  let cdw := k.cd w + 1
  ({ k with
      cd := Function.update k.cd w cdw
      pdcc := if cdw = 1 then Function.update k.pdcc c (k.pdcc c ++ [w]) else k.pdcc
      maxCD := if k.maxCD c < cdw then Function.update k.maxCD c cdw else k.maxCD },
    insert c p.2)

/-- The smallest degree in the adjacent class `c`. -/
def boundBelow (k : Kernel n) (c : ℕ) : Kernel n :=
  let least := if (k.cc c).length ≠ (k.pdcc c).length then 0
    else (k.pdcc c).foldl (fun m v => if k.cd v < m then k.cd v else m) (k.maxCD c)
  { k with minCD := Function.update k.minCD c least }

/-- Degrees into class `cur`, and the classes that have a neighbour in it. -/
def calculateColorDegrees (csr : Csr n) (cur : ℕ) (k : Kernel n) : Kernel n × Finset ℕ :=
  let p := (k.cc cur).foldl (fun p v => (csr.row v).foldl touch p) (k, ∅)
  ((p.2.sort (· ≤ ·)).foldl boundBelow p.1, p.2)

/-- How often each degree occurs in class `color`. -/
def num (k : Kernel n) (color : ℕ) : ℕ → ℕ :=
  (k.pdcc color).foldl (fun f v => Function.update f (k.cd v) (f (k.cd v) + 1))
    (Function.update (fun _ => 0) 0 ((k.cc color).length - (k.pdcc color).length))

/-- Give degree `i` its class id and queue that class; `none` stands for the initial `-1`. -/
def allocate (num : ℕ → ℕ) (color maxIdx : ℕ) (curInStk : Bool) (p : Kernel n × (ℕ → Option ℕ))
    (i : ℕ) : Kernel n × (ℕ → Option ℕ) :=
  let k := p.1
  if num i = 0 then p
  else if i = k.minCD color then
    (if !curInStk && maxIdx ≠ i then
      { k with stk := k.stk ++ [color], inStack := Function.update k.inStack color true } else k,
      Function.update p.2 i (some color))
  else
    let lastColor := k.lastColor + 1
    (if curInStk || i ≠ maxIdx then
      { k with
        lastColor := lastColor
        stk := k.stk ++ [lastColor]
        inStack := Function.update k.inStack lastColor true }
    else { k with lastColor := lastColor },
      Function.update p.2 i (some lastColor))

/-- Overwrite the first `v` by the last element and drop that. -/
def swapRemove (v : Fin n) (l : List (Fin n)) : List (Fin n) :=
  match l.getLast? with
  | none => l
  | some b => if v ∈ l then (l.set (l.idxOf v) b).dropLast else l

/-- Move `v` out of class `color` to the class of its degree. -/
def move (nm : ℕ → Option ℕ) (color : ℕ) (k : Kernel n) (v : Fin n) : Kernel n :=
  match nm (k.cd v) with
  | none => k
  | some nc =>
    if nc ≠ color then
      let cc := Function.update k.cc color (swapRemove v (k.cc color))
      { k with cc := Function.update cc nc (cc nc ++ [v]), coloring := Function.update k.coloring v nc }
    else k

/-- Split one class of varying degree. -/
def splitUpColor (k : Kernel n) (color : ℕ) : Kernel n :=
  let maxDeg := k.maxCD color
  let num := k.num color
  let maxIdx := (List.range' 1 maxDeg).foldl (fun m i => if num m < num i then i else m) 0
  let p := (List.range (maxDeg + 1)).foldl (allocate num color maxIdx (k.inStack color))
    (k, fun _ => none)
  (k.pdcc color).foldl (move p.2 color) p.1

/-- Forget the degrees of the vertices listed for class `c`. -/
def cleanup (k : Kernel n) (c : ℕ) : Kernel n :=
  { k with
    cd := (k.pdcc c).foldl (fun f v => Function.update f v 0) k.cd
    maxCD := Function.update k.maxCD c 0
    pdcc := Function.update k.pdcc c [] }

/-- One turn of the main loop with `cur` popped and `rest` left in the queue. -/
def round (csr : Csr n) (k : Kernel n) (cur : ℕ) (rest : List ℕ) : Kernel n :=
  let p := calculateColorDegrees csr cur
    { k with stk := rest, inStack := Function.update k.inStack cur false }
  let toSplit := ((p.2.sort (· ≤ ·)).filter fun c => p.1.minCD c < p.1.maxCD c).insertionSort (· ≤ ·)
  (p.2.sort (· ≤ ·)).foldl cleanup (toSplit.foldl splitUpColor p.1)

/-- `while (!stk.empty())`, for at most so many turns. -/
def run (csr : Csr n) : ℕ → Kernel n → Option (Kernel n)
  | 0, k => if k.stk = [] then some k else none
  | fuel + 1, k =>
    match k.stk with
    | [] => some k
    | cur :: rest => run csr fuel (round csr k cur rest)

/-- Before the first turn all classes `0..numInit-1` are queued. -/
def init (initColor : Fin n → ℕ) (numInit : ℕ) : Kernel n where
  coloring := initColor
  cd := fun _ => 0
  cc := (List.finRange n).foldl
    (fun cc v => Function.update cc (initColor v) (cc (initColor v) ++ [v])) fun _ => []
  pdcc := fun _ => []
  maxCD := fun _ => 0
  minCD := fun _ => 0
  inStack := fun c => c < numInit
  lastColor := numInit - 1
  stk := List.range numInit

end Kernel

/-- Sorted without repetitions: `std::sort`, `std::unique`. -/
def distinctColors (vertexColors : Fin n → ℤ) : List ℤ :=
  ((List.ofFn vertexColors).dedup).insertionSort (· ≤ ·)

/-- `std::lower_bound`. -/
def lowerBound (distinct : List ℤ) (x : ℤ) : ℕ := (distinct.takeWhile (· < x)).length

/-- The variables before the first turn; no `vertexColors` means a uniform start. -/
def initialKernel : Option (Fin n → ℤ) → Kernel n
  | none => Kernel.init (fun _ => 0) 1
  | some colors => Kernel.init (fun v => lowerBound (distinctColors colors) (colors v))
      (distinctColors colors).length

/-- The native kernel, with a bound on the turns of its loop. -/
def run1WL (fuel : ℕ) (csr : Csr n) (vertexColors : Option (Fin n → ℤ)) : Option (Fin n → ℕ) :=
  if n = 0 ∨ n = 1 then some fun _ => 0
  else (Kernel.run csr fuel (initialKernel vertexColors)).map Kernel.coloring

/-! ### Counting degrees -/

namespace Kernel

/-- The two kernels agree on the classes and the queue. -/
structure SameClasses (k k' : Kernel n) : Prop where
  coloring : k'.coloring = k.coloring
  cc : k'.cc = k.cc
  inStack : k'.inStack = k.inStack
  lastColor : k'.lastColor = k.lastColor
  stk : k'.stk = k.stk

/-- The counters hold the degrees `d`, for the colouring `color`. -/
structure Counted (d color : Fin n → ℕ) (k : Kernel n) (adj : Finset ℕ) : Prop where
  cd : k.cd = d
  pdcc_nodup : ∀ c, (k.pdcc c).Nodup
  mem_pdcc : ∀ c w, w ∈ k.pdcc c ↔ color w = c ∧ 0 < d w
  mem_adj : ∀ c, c ∈ adj ↔ ∃ w, color w = c ∧ 0 < d w
  le_maxCD : ∀ w, d w ≤ k.maxCD (color w)
  maxCD_used : ∀ c, k.maxCD c = 0 ∨ ∃ w, color w = c ∧ d w = k.maxCD c

theorem touch_counted {d : Fin n → ℕ} {k : Kernel n} {p : Kernel n × Finset ℕ} (w : Fin n)
    (hs : SameClasses k p.1) (h : Counted d k.coloring p.1 p.2) :
    SameClasses k (touch p w).1 ∧
      Counted (Function.update d w (d w + 1)) k.coloring (touch p w).1 (touch p w).2 := by
  obtain ⟨k', adj⟩ := p
  have hcol : k'.coloring = k.coloring := hs.coloring
  have hcd : k'.cd = d := h.cd
  refine ⟨⟨hs.coloring, hs.cc, hs.inStack, hs.lastColor, hs.stk⟩, ?_⟩
  have hpos : ∀ x, 0 < Function.update d w (d w + 1) x ↔ x = w ∨ 0 < d x := by
    intro x
    by_cases hx : x = w
    · subst hx; simp
    · rw [Function.update_of_ne hx]; simp [hx]
  have hmem : ∀ c x, x ∈ (touch (k', adj) w).1.pdcc c ↔
      k.coloring x = c ∧ 0 < Function.update d w (d w + 1) x := by
    intro c x
    simp only [touch, hcol, hcd, hpos]
    by_cases hone : d w + 1 = 1
    · rw [if_pos hone]
      by_cases hc : c = k.coloring w
      · subst hc
        rw [Function.update_self, List.mem_append, h.mem_pdcc, List.mem_singleton]
        constructor
        · rintro (hx | rfl)
          · exact ⟨hx.1, Or.inr hx.2⟩
          · exact ⟨rfl, Or.inl rfl⟩
        · rintro ⟨hc, rfl | hx⟩
          · exact Or.inr rfl
          · exact Or.inl ⟨hc, hx⟩
      · rw [Function.update_of_ne hc, h.mem_pdcc]
        refine and_congr_right fun hx => ⟨Or.inr, fun hor => hor.resolve_left ?_⟩
        rintro rfl; exact hc hx.symm
    · rw [if_neg hone, h.mem_pdcc]
      refine and_congr_right fun _ => ⟨Or.inr, fun hor => ?_⟩
      rcases hor with rfl | hx
      · omega
      · exact hx
  refine ⟨by simp only [touch, hcd], fun c => ?_, hmem, fun c => ?_, fun x => ?_, fun c => ?_⟩
  · have hnd := h.pdcc_nodup
    simp only [touch, hcol, hcd]
    by_cases hone : d w + 1 = 1
    · rw [if_pos hone]
      by_cases hc : c = k.coloring w
      · subst hc
        rw [Function.update_self]
        refine (hnd _).append (List.nodup_singleton w) fun x hx hx' => ?_
        rw [List.mem_singleton] at hx'
        have := ((h.mem_pdcc _ x).mp hx).2
        rw [hx'] at this
        omega
      · rw [Function.update_of_ne hc]; exact hnd c
    · rw [if_neg hone]; exact hnd c
  · simp only [touch, hcol, Finset.mem_insert, h.mem_adj, hpos]
    constructor
    · rintro (rfl | ⟨x, hx, hd⟩)
      · exact ⟨w, rfl, Or.inl rfl⟩
      · exact ⟨x, hx, Or.inr hd⟩
    · rintro ⟨x, hx, rfl | hd⟩
      · exact Or.inl hx.symm
      · exact Or.inr ⟨x, hx, hd⟩
  · have hle : ∀ x, d x ≤ k'.maxCD (k.coloring x) := h.le_maxCD
    simp only [touch, hcol, hcd]
    by_cases hlt : k'.maxCD (k.coloring w) < d w + 1
    · rw [if_pos hlt]
      by_cases hxw : x = w
      · subst hxw; simp
      · rw [Function.update_of_ne hxw]
        by_cases hc : k.coloring x = k.coloring w
        · rw [hc, Function.update_self]
          have := hle x
          rw [hc] at this; omega
        · rw [Function.update_of_ne hc]; exact hle x
    · rw [if_neg hlt]
      by_cases hxw : x = w
      · subst hxw; rw [Function.update_self]; omega
      · rw [Function.update_of_ne hxw]; exact hle x
  · simp only [touch, hcol, hcd]
    by_cases hlt : k'.maxCD (k.coloring w) < d w + 1
    · rw [if_pos hlt]
      by_cases hc : c = k.coloring w
      · subst hc
        exact Or.inr ⟨w, rfl, by simp⟩
      · rw [Function.update_of_ne hc]
        refine (h.maxCD_used c).imp_right fun ⟨x, hx, hd⟩ => ⟨x, hx, ?_⟩
        rw [Function.update_of_ne (by rintro rfl; exact hc hx.symm)]
        exact hd
    · rw [if_neg hlt]
      refine (h.maxCD_used c).imp_right fun ⟨x, hx, hd⟩ => ⟨x, hx, ?_⟩
      have hxw : x ≠ w := by
        rintro rfl
        subst hx
        dsimp only at hd
        omega
      rw [Function.update_of_ne hxw]
      exact hd

theorem foldl_touch {k : Kernel n} : ∀ (l : List (Fin n)) (d : Fin n → ℕ) (p : Kernel n × Finset ℕ),
    SameClasses k p.1 → Counted d k.coloring p.1 p.2 → SameClasses k (l.foldl touch p).1 ∧
      Counted (fun w => d w + l.count w) k.coloring (l.foldl touch p).1 (l.foldl touch p).2
  | [], d, p, hs, h => ⟨hs, by simpa using h⟩
  | x :: l, d, p, hs, h => by
    obtain ⟨hs', h'⟩ := touch_counted x hs h
    have := foldl_touch l _ _ hs' h'
    rw [List.foldl_cons]
    refine ⟨this.1, ?_⟩
    convert this.2 using 2 with w
    by_cases hw : w = x
    · subst hw; rw [Function.update_self, List.count_cons_self]; omega
    · rw [Function.update_of_ne hw, List.count_cons_of_ne (Ne.symm hw)]

/-- The running minimum of the source is a lower bound that is attained. -/
theorem foldl_min {α : Type*} (f : α → ℕ) : ∀ (l : List α) (b : ℕ),
    let m := l.foldl (fun m v => if f v < m then f v else m) b
    m ≤ b ∧ (∀ v ∈ l, m ≤ f v) ∧ (m = b ∨ ∃ v ∈ l, f v = m)
  | [], b => ⟨le_refl b, by simp, Or.inl rfl⟩
  | x :: l, b => by
    obtain ⟨hb, hl, hor⟩ := foldl_min f l (if f x < b then f x else b)
    rw [List.foldl_cons]
    dsimp only at hb hl hor ⊢
    refine ⟨hb.trans (by split <;> omega), ?_, ?_⟩
    · intro v hv
      rcases List.mem_cons.mp hv with rfl | hv
      · exact hb.trans (by split <;> omega)
      · exact hl v hv
    · rcases hor with he | ⟨v, hv, he⟩
      · by_cases hlt : f x < b
        · rw [if_pos hlt] at he ⊢
          exact Or.inr ⟨x, List.mem_cons_self, he.symm⟩
        · rw [if_neg hlt] at he ⊢
          exact Or.inl he
      · exact Or.inr ⟨v, List.mem_cons_of_mem _ hv, he⟩

/-- The classes as lists: without repetitions, and in step with the colouring. -/
structure Classes (k : Kernel n) : Prop where
  nodup : ∀ c, (k.cc c).Nodup
  mem : ∀ c v, v ∈ k.cc c ↔ k.coloring v = c

/-- The members of a class that have a neighbour in the splitter. -/
theorem Counted.perm {d : Fin n → ℕ} {k : Kernel n} {adj : Finset ℕ} (hcc : Classes k)
    (h : Counted d k.coloring k adj) (c : ℕ) :
    ((k.cc c).filter fun v => 0 < d v).Perm (k.pdcc c) := by
  refine (List.perm_ext_iff_of_nodup ((hcc.nodup c).filter _) (h.pdcc_nodup c)).mpr fun v => ?_
  rw [List.mem_filter, hcc.mem, h.mem_pdcc, decide_eq_true_eq]

/-- `minCD` holds the least degree of every adjacent class. -/
structure Bounded (d color : Fin n → ℕ) (k : Kernel n) (adj : Finset ℕ) : Prop
    extends Counted d color k adj where
  minCD_le : ∀ c ∈ adj, ∀ v, color v = c → k.minCD c ≤ d v
  minCD_used : ∀ c ∈ adj, ∃ v, color v = c ∧ d v = k.minCD c

theorem foldl_boundBelow : ∀ (l : List ℕ) (k : Kernel n), SameClasses k (l.foldl boundBelow k) ∧
    (l.foldl boundBelow k).cd = k.cd ∧ (l.foldl boundBelow k).pdcc = k.pdcc ∧
    (l.foldl boundBelow k).maxCD = k.maxCD ∧ ∀ c, (l.foldl boundBelow k).minCD c =
      if c ∈ l then (boundBelow k c).minCD c else k.minCD c
  | [], k => by simp [SameClasses.mk]
  | x :: l, k => by
    obtain ⟨⟨h₁, h₂, h₃, h₄, h₅⟩, hcd, hpdcc, hmax, hmin⟩ := foldl_boundBelow l (boundBelow k x)
    rw [List.foldl_cons]
    refine ⟨⟨h₁, h₂, h₃, h₄, h₅⟩, hcd, hpdcc, hmax, fun c => ?_⟩
    rw [hmin]
    by_cases hc : c ∈ l
    · rw [if_pos hc, if_pos (List.mem_cons_of_mem _ hc)]
      simp only [boundBelow, Function.update_self]
      rfl
    · rw [if_neg hc]
      by_cases hx : c = x
      · rw [if_pos (by simp [hx]), hx]
      · rw [if_neg (by simp [hc, hx])]
        exact Function.update_of_ne hx _ _

/-- The least degree of an adjacent class is found: it is zero when some member was not counted. -/
theorem boundBelow_least {d : Fin n → ℕ} {k : Kernel n} {adj : Finset ℕ} (hcc : Classes k)
    (h : Counted d k.coloring k adj) {c : ℕ} (hc : c ∈ adj) :
    (∀ v, k.coloring v = c → (boundBelow k c).minCD c ≤ d v) ∧
      ∃ v, k.coloring v = c ∧ d v = (boundBelow k c).minCD c := by
  have hperm := h.perm hcc c
  simp only [boundBelow, Function.update_self, h.cd]
  by_cases hlen : (k.cc c).length ≠ (k.pdcc c).length
  · rw [if_pos hlen]
    refine ⟨fun v _ => Nat.zero_le _, ?_⟩
    by_contra hno
    push Not at hno
    refine hlen ?_
    rw [← hperm.length_eq, List.filter_eq_self.mpr fun v hv =>
      decide_eq_true (Nat.pos_of_ne_zero (hno v ((hcc.mem c v).mp hv)))]
  · rw [if_neg hlen]
    push Not at hlen
    have hall : ∀ v, k.coloring v = c → v ∈ k.pdcc c := by
      intro v hv
      have hself : (k.cc c).filter (fun v => 0 < d v) = k.cc c :=
        List.filter_eq_self.mpr (List.length_filter_eq_length_iff.mp (hperm.length_eq.trans hlen.symm))
      rw [← hperm.mem_iff, hself]
      exact (hcc.mem c v).mpr hv
    obtain ⟨-, hle, hor⟩ := foldl_min d (k.pdcc c) (k.maxCD c)
    refine ⟨fun v hv => hle v (hall v hv), ?_⟩
    rcases hor with he | ⟨v, hv, he⟩
    · rcases h.maxCD_used c with h0 | ⟨w, hw, hd⟩
      · obtain ⟨w, hw, hd⟩ := (h.mem_adj c).mp hc
        have := h.le_maxCD w
        rw [hw] at this; omega
      · exact ⟨w, hw, hd.trans he.symm⟩
    · exact ⟨v, ((h.mem_pdcc c v).mp hv).1, he⟩

theorem count_flatMap_nodup {α β : Type*} [DecidableEq β] {f : α → List β} (hf : ∀ a, (f a).Nodup)
    (b : β) (l : List α) : (l.flatMap f).count b = l.countP fun a => b ∈ f a := by
  induction l with
  | nil => rfl
  | cons a l ih =>
    rw [List.flatMap_cons, List.count_append, ih, List.countP_cons, (hf a).count, add_comm]
    simp

/-- Reading the neighbours of the splitter counts, for every vertex, its neighbours in there. -/
theorem calculateColorDegrees_spec (csr : Csr n) [csr.Simple] {k : Kernel n} (hcc : Classes k)
    (hcd : ∀ v, k.cd v = 0) (hpdcc : ∀ c, k.pdcc c = []) (hmax : ∀ c, k.maxCD c = 0) (cur : ℕ) :
    SameClasses k (calculateColorDegrees csr cur k).1 ∧
      Bounded (degIn csr.row k.coloring cur) k.coloring (calculateColorDegrees csr cur k).1
        (calculateColorDegrees csr cur k).2 := by
  have hzero : Counted (fun _ => 0) k.coloring k ∅ :=
    ⟨funext hcd, fun c => by simp [hpdcc c], fun c w => by simp [hpdcc c], fun c => by simp,
      fun w => by simp, fun c => Or.inl (hmax c)⟩
  obtain ⟨hs, hcounted⟩ := foldl_touch ((k.cc cur).flatMap csr.row) (fun _ => 0) (k, ∅)
    ⟨rfl, rfl, rfl, rfl, rfl⟩ hzero
  have hdeg : (fun w => 0 + ((k.cc cur).flatMap csr.row).count w) = degIn csr.row k.coloring cur := by
    funext w
    rw [zero_add, count_flatMap_nodup Csr.Simple.nodup, degIn, List.countP_eq_length_filter,
      List.countP_eq_length_filter]
    refine List.Perm.length_eq ((List.perm_ext_iff_of_nodup ((hcc.nodup cur).filter _)
      ((Csr.Simple.nodup w).filter _)).mpr fun v => ?_)
    simp only [List.mem_filter, decide_eq_true_eq, hcc.mem]
    exact ⟨fun h => ⟨Csr.Simple.symm h.2, h.1⟩, fun h => ⟨h.2, Csr.Simple.symm h.1⟩⟩
  rw [hdeg] at hcounted
  have heq : ((k.cc cur).foldl (fun p v => (csr.row v).foldl touch p) (k, ∅)) =
      ((k.cc cur).flatMap csr.row).foldl touch (k, ∅) := by
    rw [List.foldl_flatMap]
  simp only [calculateColorDegrees, heq]
  generalize ((k.cc cur).flatMap csr.row).foldl touch (k, ∅) = p at hs hcounted
  obtain ⟨hb, hcd', hpdcc', hmax', hmin⟩ := foldl_boundBelow (p.2.sort (· ≤ ·)) p.1
  have hcc' : Classes p.1 := ⟨fun c => by rw [hs.cc]; exact hcc.nodup c,
    fun c v => by rw [hs.cc, hs.coloring]; exact hcc.mem c v⟩
  refine ⟨⟨hb.coloring.trans hs.coloring, hb.cc.trans hs.cc, hb.inStack.trans hs.inStack,
    hb.lastColor.trans hs.lastColor, hb.stk.trans hs.stk⟩, ⟨⟨hcd'.trans hcounted.cd, ?_, ?_,
    hcounted.mem_adj, ?_, ?_⟩, fun c hc => ?_, fun c hc => ?_⟩⟩
  · rw [hpdcc']; exact hcounted.pdcc_nodup
  · rw [hpdcc']; exact hcounted.mem_pdcc
  · rw [hmax']; exact hcounted.le_maxCD
  · rw [hmax']; exact hcounted.maxCD_used
  · rw [hmin, if_pos (Finset.mem_sort _ |>.mpr hc), ← hs.coloring]
    exact (boundBelow_least hcc' (hs.coloring ▸ hcounted) hc).1
  · rw [hmin, if_pos (Finset.mem_sort _ |>.mpr hc), ← hs.coloring]
    exact (boundBelow_least hcc' (hs.coloring ▸ hcounted) hc).2

end Kernel

end Dialysis.Refinement
