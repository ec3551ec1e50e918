import GraphDialysis.Refinement.Round

/-! The native kernel as a whole, and `NativeWL1`, its caller. `run1WL_spec` is the contract: the
    loop ends, within as many turns as there are vertices, in the coarsest equitable refinement of
    the given colouring, its class ids being `0..k-1`; `compute1WLColorsFrom_iso` says that
    isomorphic inputs are numbered alike. -/

namespace Dialysis.Refinement
open Lib
variable {n : ℕ}

/-! ### Initial ids -/

theorem distinctColors_sorted (colors : Fin n → ℤ) : (distinctColors colors).Pairwise (· < ·) := by
  have hnd : (distinctColors colors).Nodup :=
    (List.perm_insertionSort _ _).nodup_iff.mpr (List.nodup_dedup _)
  exact ((List.pairwise_insertionSort _ _).and hnd).imp fun h => lt_of_le_of_ne h.1 h.2

theorem mem_distinctColors {colors : Fin n → ℤ} {x : ℤ} :
    x ∈ distinctColors colors ↔ ∃ v, colors v = x := by
  rw [distinctColors, List.mem_insertionSort, List.mem_dedup, List.mem_ofFn]

/-- In a strictly increasing list the lower bound of an entry is its index. -/
theorem lowerBound_getElem : ∀ {l : List ℤ}, l.Pairwise (· < ·) → ∀ {i : ℕ} (hi : i < l.length),
    lowerBound l l[i] = i
  | x :: l, h, 0, _ => by simp [lowerBound]
  | x :: l, h, i + 1, hi => by
    obtain ⟨hx, hl⟩ := List.pairwise_cons.mp h
    have hi' : i < l.length := by simpa using hi
    rw [List.getElem_cons_succ, lowerBound,
      List.takeWhile_cons_of_pos (by simpa using hx _ (List.getElem_mem hi')), List.length_cons,
      ← lowerBound, lowerBound_getElem hl hi']

/-- The dense id of a vertex' initial colour. -/
def initialId (colors : Fin n → ℤ) (v : Fin n) : ℕ := lowerBound (distinctColors colors) (colors v)

theorem exists_getElem_initialId (colors : Fin n → ℤ) (v : Fin n) :
    ∃ h : initialId colors v < (distinctColors colors).length,
      (distinctColors colors)[initialId colors v] = colors v := by
  obtain ⟨i, hi, he⟩ := List.mem_iff_getElem.mp (mem_distinctColors.mpr ⟨v, rfl⟩)
  have hid : initialId colors v = i :=
    (congrArg _ he.symm).trans (lowerBound_getElem (distinctColors_sorted colors) hi)
  exact ⟨hid ▸ hi, by simp only [hid, he]⟩

theorem initialId_inj {colors : Fin n → ℤ} {u v : Fin n} :
    initialId colors u = initialId colors v ↔ colors u = colors v := by
  refine ⟨fun h => ?_, fun h => by rw [initialId, initialId, h]⟩
  obtain ⟨hu, heu⟩ := exists_getElem_initialId colors u
  obtain ⟨hv, hev⟩ := exists_getElem_initialId colors v
  rw [← heu, ← hev]
  simp only [h]

theorem initialId_used {colors : Fin n → ℤ} {i : ℕ} (hi : i < (distinctColors colors).length) :
    ∃ v, initialId colors v = i := by
  obtain ⟨v, hv⟩ := mem_distinctColors.mp (List.getElem_mem hi)
  exact ⟨v, by rw [initialId, hv, lowerBound_getElem (distinctColors_sorted colors) hi]⟩

/-! ### The run -/

namespace Kernel

theorem foldl_classes (f : Fin n → ℕ) : ∀ (l : List (Fin n)) (cc : ℕ → List (Fin n)) (c : ℕ),
    l.foldl (fun cc v => Function.update cc (f v) (cc (f v) ++ [v])) cc c =
      cc c ++ l.filter fun v => f v = c
  | [], _, _ => by simp
  | x :: l, cc, c => by
    rw [List.foldl_cons, foldl_classes f l]
    by_cases hx : f x = c
    · subst hx; simp
    · rw [Function.update_of_ne (Ne.symm hx), List.filter_cons_of_neg (by simpa using hx)]

theorem init_rep (f : Fin n → ℕ) (k : ℕ) : Rep (init f k) (Splitter.start f k) where
  nodup := fun c => by
    simp only [init, foldl_classes, List.nil_append]
    exact (List.nodup_finRange n).filter _
  mem := fun c v => by simp [init, foldl_classes]
  coloring := rfl
  stk := rfl
  lastColor := rfl
  inStack := fun c => by simp [init]

/-- The loop follows the abstract run turn by turn. -/
theorem run_rep {csr : Csr n} [csr.Simple] : ∀ (fuel : ℕ) {k : Kernel n}
    {st st' : Splitter.State (Fin n)}, Rep k st → Clean k → Splitter.Dense st → Splitter.Tidy st →
    Splitter.loop csr.row fuel st = some st' →
      ∃ k', run csr fuel k = some k' ∧ k'.coloring = st'.color
  | 0, k, st, st', hrep, _, _, _, h => by
    rw [Splitter.loop] at h
    rw [run, hrep.stk]
    split at h
    · rename_i hq
      cases h
      exact ⟨k, if_pos hq, hrep.coloring⟩
    · cases h
  | fuel + 1, k, st, st', hrep, hclean, hdense, htidy, h => by
    rw [Splitter.loop] at h
    rw [run]
    cases hq : k.stk with
    | nil =>
      rw [if_pos (hrep.stk ▸ hq)] at h
      cases h
      exact ⟨k, rfl, hrep.coloring⟩
    | cons cur rest =>
      have hq' : st.queue = cur :: rest := hrep.stk ▸ hq
      rw [if_neg (by simp [hq'])] at h
      obtain ⟨hrep', hclean'⟩ := round_rep csr hrep hclean hdense htidy hq
      exact run_rep fuel hrep' hclean' (Splitter.step_split csr.row hq' hdense).dense
        (Splitter.step_tidy hq' hdense htidy) h

end Kernel

/-- The numbering from which the kernel starts. -/
def startIds (vertexColors : Option (Fin n → ℤ)) (v : Fin n) : ℕ :=
  vertexColors.elim 0 fun colors => initialId colors v

/-- How many there are. -/
def numInit (vertexColors : Option (Fin n → ℤ)) : ℕ :=
  vertexColors.elim 1 fun colors => (distinctColors colors).length

theorem startIds_inj {vertexColors : Option (Fin n → ℤ)} {u v : Fin n} :
    startIds vertexColors u = startIds vertexColors v ↔
      ∀ colors ∈ vertexColors, colors u = colors v := by
  cases vertexColors with
  | none => simp [startIds]
  | some colors => simp [startIds, initialId_inj]

theorem startIds_lt (vertexColors : Option (Fin n → ℤ)) (v : Fin n) :
    startIds vertexColors v < numInit vertexColors := by
  cases vertexColors with
  | none => exact Nat.zero_lt_one
  | some colors => exact (exists_getElem_initialId colors v).1

theorem startIds_used [NeZero n] {vertexColors : Option (Fin n → ℤ)} {i : ℕ}
    (hi : i < numInit vertexColors) : ∃ v, startIds vertexColors v = i := by
  cases vertexColors with
  | none => exact ⟨0, (Nat.lt_one_iff.mp hi).symm⟩
  | some colors => exact initialId_used hi

/-- The kernel's result is that of the abstract run from the initial ids. -/
theorem run1WL_eq (csr : Csr n) [csr.Simple] (hn : ¬(n = 0 ∨ n = 1)) {fuel : ℕ} (hfuel : n ≤ fuel)
    (vertexColors : Option (Fin n → ℤ)) : ∃ st, Splitter.loop csr.row fuel
        (Splitter.start (startIds vertexColors) (numInit vertexColors)) = some st ∧
      Splitter.Dense st ∧ IsCoarsest csr.row (startIds vertexColors) st.color ∧
      run1WL fuel csr vertexColors = some st.color := by
  have : NeZero n := ⟨fun h => hn (Or.inl h)⟩
  have : Nonempty (Fin n) := ⟨0⟩
  obtain ⟨st, hst, hdense, hcoarsest⟩ := Splitter.loop_start csr.row
    (startIds_lt vertexColors) (fun i hi => startIds_used hi) (by simpa using hfuel)
  have hinv := Splitter.start_inv csr.row (startIds_lt vertexColors) fun i hi =>
    startIds_used hi
  obtain ⟨k', hk', hcol⟩ := Kernel.run_rep fuel
    (Kernel.init_rep (startIds vertexColors) (numInit vertexColors)) ⟨fun _ => rfl, fun _ => rfl,
      fun _ => rfl⟩ hinv.dense ⟨List.nodup_range, fun i hi => by
        simp only [Splitter.start, List.mem_range] at hi ⊢; omega⟩ hst
  refine ⟨st, hst, hdense, hcoarsest, ?_⟩
  have hstart : initialKernel vertexColors =
      Kernel.init (startIds vertexColors) (numInit vertexColors) := by cases vertexColors <;> rfl
  rw [run1WL, if_neg hn, hstart, hk', Option.map_some, hcol]

/-- The contract of the kernel: with a turn for every vertex it ends, in the coarsest equitable
    refinement of the given colouring (of the uniform one where there is none), with class ids
    `0..k-1`. -/
theorem run1WL_spec (csr : Csr n) [csr.Simple] (vertexColors : Option (Fin n → ℤ)) :
    ∃ result, (∀ fuel, n ≤ fuel → run1WL fuel csr vertexColors = some result) ∧
      IsCoarsest csr.row (startIds vertexColors) result ∧
      ∃ k, ∀ c, (∃ v, result v = c) ↔ c < k := by
  by_cases hn : n = 0 ∨ n = 1
  · have hsub : ∀ u v : Fin n, u = v := fun u v => by
      have := u.isLt; have := v.isLt; exact Fin.ext (by omega)
    refine ⟨fun _ => 0, fun fuel _ => by rw [run1WL, if_pos hn], ⟨fun u v _ => by rw [hsub u v],
      fun u v _ k => by rw [hsub u v], fun _ _ _ _ _ _ => rfl⟩, ?_⟩
    rcases hn with h0 | h1
    · exact ⟨0, fun c => ⟨fun ⟨v, _⟩ => absurd v.isLt (by omega), fun h => absurd h (by omega)⟩⟩
    · exact ⟨1, fun c => ⟨fun ⟨_, h⟩ => h ▸ Nat.zero_lt_one,
        fun h => ⟨⟨0, by omega⟩, (Nat.lt_one_iff.mp h).symm⟩⟩⟩
  · obtain ⟨st, hst, hdense, hcoarsest, -⟩ := run1WL_eq csr hn (le_refl n) vertexColors
    refine ⟨st.color, fun fuel hfuel => ?_, hcoarsest, st.last + 1, fun c =>
      ⟨fun ⟨v, hv⟩ => hv ▸ Nat.lt_succ_of_le (hdense.le v), fun hc => hdense.used c (by omega)⟩⟩
    obtain ⟨st', hst', -, -, hrun⟩ := run1WL_eq csr hn hfuel vertexColors
    rw [Splitter.loop_mono hfuel hst] at hst'
    cases hst'
    exact hrun

/-- The kernel computes the coarsest equitable refinement, stated outright: the final classes refine
    the given ones, any two vertices of one have equally many neighbours in every other, every
    partition with these two properties refines them, and their ids are `0..k-1`. -/
theorem run1WL_coarsestEquitable (csr : Csr n) [csr.Simple] (vertexColors : Option (Fin n → ℤ)) :
    ∃ result, (∀ fuel, n ≤ fuel → run1WL fuel csr vertexColors = some result) ∧
      (∀ u v, result u = result v → ∀ colors ∈ vertexColors, colors u = colors v) ∧
      (∀ u v, result u = result v → ∀ c, (csr.row u).countP (fun w => result w = c) =
        (csr.row v).countP fun w => result w = c) ∧
      (∀ {κ : Type} [DecidableEq κ] (π : Fin n → κ),
        (∀ u v, π u = π v → ∀ colors ∈ vertexColors, colors u = colors v) →
        (∀ u v, π u = π v → ∀ k, (csr.row u).countP (fun w => π w = k) =
          (csr.row v).countP fun w => π w = k) → ∀ u v, π u = π v → result u = result v) ∧
      ∃ k, ∀ c, (∃ v, result v = c) ↔ c < k := by
  obtain ⟨result, hrun, hcoarsest, hids⟩ := run1WL_spec csr vertexColors
  exact ⟨result, hrun, fun u v h => startIds_inj.mp (hcoarsest.refines u v h), hcoarsest.equitable,
    fun π hπ heq => hcoarsest.coarsest π (fun u v h => startIds_inj.mpr (hπ u v h)) heq, hids⟩

/-- On a path of three vertices the ends are told from the middle. -/
theorem run1WL_coarsestEquitable_path :
    ∃ result, (∀ fuel, 3 ≤ fuel →
        run1WL fuel (Graph.ofEdges 3 [(0, 1), (1, 2)]).toCsr none = some result) ∧
      (∀ u v, result u = result v → ∀ colors ∈ (none : Option (Fin 3 → ℤ)), colors u = colors v) ∧
      (∀ u v, result u = result v → ∀ c,
        ((Graph.ofEdges 3 [(0, 1), (1, 2)]).toCsr.row u).countP (fun w => result w = c) =
          ((Graph.ofEdges 3 [(0, 1), (1, 2)]).toCsr.row v).countP fun w => result w = c) ∧
      (∀ {κ : Type} [DecidableEq κ] (π : Fin 3 → κ),
        (∀ u v, π u = π v → ∀ colors ∈ (none : Option (Fin 3 → ℤ)), colors u = colors v) →
        (∀ u v, π u = π v → ∀ k,
          ((Graph.ofEdges 3 [(0, 1), (1, 2)]).toCsr.row u).countP (fun w => π w = k) =
            ((Graph.ofEdges 3 [(0, 1), (1, 2)]).toCsr.row v).countP fun w => π w = k) →
          ∀ u v, π u = π v → result u = result v) ∧
      ∃ k, ∀ c, (∃ v, result v = c) ↔ c < k :=
  run1WL_coarsestEquitable (Graph.ofEdges 3 [(0, 1), (1, 2)]).toCsr none

/-! ### `NativeWL1` -/

/-- The int array that the native call returns for a graph. -/
def compute1WLColorsFrom (g : Graph) [g.Simple] (coloring : Fin g.n → ℤ) : Fin g.n → ℕ :=
  (run1WL g.n g.toCsr (some coloring)).get (by
    obtain ⟨result, h, -⟩ := run1WL_spec g.toCsr (some coloring)
    rw [h g.n le_rfl]; rfl)

theorem run1WL_compute1WLColorsFrom (g : Graph) [g.Simple] (coloring : Fin g.n → ℤ) :
    run1WL g.n g.toCsr (some coloring) = some (compute1WLColorsFrom g coloring) :=
  (Option.some_get _).symm

theorem compute1WLColorsFrom_spec (g : Graph) [g.Simple] (coloring : Fin g.n → ℤ) :
    IsCoarsest g.adj coloring (compute1WLColorsFrom g coloring) := by
  obtain ⟨result, h, hcoarsest, -⟩ := run1WL_spec g.toCsr (some coloring)
  have heq := (h g.n le_rfl).symm.trans (run1WL_compute1WLColorsFrom g coloring)
  cases heq
  rw [g.row_toCsr_eq] at hcoarsest
  exact ⟨fun u v huv => initialId_inj.mp (hcoarsest.refines u v huv), hcoarsest.equitable,
    fun π hπ => hcoarsest.coarsest π fun u v huv => initialId_inj.mpr (hπ u v huv)⟩

theorem distinctColors_iso {m : ℕ} {e : Fin n ≃ Fin m} {colors : Fin n → ℤ} {colors' : Fin m → ℤ}
    (h : ∀ v, colors' (e v) = colors v) : distinctColors colors' = distinctColors colors := by
  refine (distinctColors_sorted colors').eq_of_mem_iff (distinctColors_sorted colors) fun x => ?_
  rw [mem_distinctColors, mem_distinctColors]
  exact ⟨fun ⟨w, hw⟩ => ⟨e.symm w, by rw [← h, e.apply_symm_apply, hw]⟩,
    fun ⟨v, hv⟩ => ⟨e v, by rw [h, hv]⟩⟩

theorem startIds_carried {m : ℕ} {e : Fin n ≃ Fin m} (vertexColors : Option (Fin m → ℤ)) (v : Fin n) :
    startIds vertexColors (e v) = startIds (vertexColors.map (· ∘ e)) v := by
  cases vertexColors with
  | none => rfl
  | some colors => exact congrArg (fun d => lowerBound d (colors (e v))) (distinctColors_iso fun _ => rfl)

theorem numInit_carried {m : ℕ} (e : Fin n ≃ Fin m) (vertexColors : Option (Fin m → ℤ)) :
    numInit vertexColors = numInit (vertexColors.map (· ∘ e)) := by
  cases vertexColors with
  | none => rfl
  | some colors => exact congrArg List.length (distinctColors_iso (e := e) fun _ => rfl)

/-- The kernel numbers corresponding vertices alike, whatever the order of the neighbours. -/
theorem run1WL_carried {m : ℕ} {csr : Csr n} {csr' : Csr m} [csr.Simple] [csr'.Simple]
    {e : Fin n ≃ Fin m} (hrow : ∀ v, ((csr.row v).map e).Perm (csr'.row (e v)))
    {vertexColors : Option (Fin m → ℤ)} {result : Fin n → ℕ} {result' : Fin m → ℕ}
    (h : run1WL n csr (vertexColors.map (· ∘ e)) = some result)
    (h' : run1WL m csr' vertexColors = some result') (v : Fin n) : result' (e v) = result v := by
  obtain rfl : m = n := by simpa using (Fintype.card_congr e).symm
  by_cases hn : m = 0 ∨ m = 1
  · rw [run1WL, if_pos hn] at h h'
    rw [← Option.some.inj h, ← Option.some.inj h']
  · obtain ⟨st, hst, -, -, hrun⟩ := run1WL_eq csr hn le_rfl (vertexColors.map (· ∘ e))
    obtain ⟨st', hst', -, -, hrun'⟩ := run1WL_eq csr' hn le_rfl vertexColors
    have hcarried : Splitter.Carried e
        (Splitter.start (startIds (vertexColors.map (· ∘ e))) (numInit (vertexColors.map (· ∘ e))))
        (Splitter.start (startIds vertexColors) (numInit vertexColors)) :=
      ⟨fun v => startIds_carried vertexColors v,
        by simp only [Splitter.start, numInit_carried e vertexColors],
        by simp only [Splitter.start, numInit_carried e vertexColors]⟩
    have := (Splitter.loop_carried hrow m hcarried hst hst').color v
    rw [← Option.some.inj (hrun.symm.trans h), ← Option.some.inj (hrun'.symm.trans h'), this]

/-- Corresponding vertices of isomorphic coloured graphs get the same number. -/
theorem compute1WLColorsFrom_iso {g h : Graph} [g.Simple] [h.Simple] {e : Fin g.n ≃ Fin h.n}
    (he : Graph.IsIso g h e) {colors : Fin g.n → ℤ} {colors' : Fin h.n → ℤ}
    (hcolors : ∀ v, colors' (e v) = colors v) (v : Fin g.n) :
    compute1WLColorsFrom h colors' (e v) = compute1WLColorsFrom g colors v := by
  obtain rfl : colors' ∘ e = colors := funext hcolors
  have hrow : ∀ v, ((g.toCsr.row v).map e).Perm (h.toCsr.row (e v)) := fun v => by
    rw [g.row_toCsr, h.row_toCsr]
    exact he.adj_perm v
  have hg : run1WL g.n g.toCsr ((some colors').map (· ∘ e)) = some _ :=
    run1WL_compute1WLColorsFrom g (colors' ∘ e)
  exact run1WL_carried hrow hg (run1WL_compute1WLColorsFrom h colors') v

/-- A layout of the relabelled graph, its rows in any order, is in symmetric form too. -/
theorem simple_of_row_perm {csr csr' : Csr n} [csr.Simple] {perm : Equiv.Perm (Fin n)}
    (hrow : ∀ v, ((csr.row v).map perm).Perm (csr'.row (perm v))) : csr'.Simple where
  nodup := fun w => by
    obtain ⟨v, rfl⟩ := perm.surjective w
    exact (hrow v).nodup_iff.mp ((Csr.Simple.nodup v).map perm.injective)
  symm := fun {v w} hw => by
    obtain ⟨v, rfl⟩ := perm.surjective v
    obtain ⟨w, rfl⟩ := perm.surjective w
    rw [← (hrow _).mem_iff, List.mem_map_of_injective perm.injective] at hw ⊢
    exact Csr.Simple.symm hw
  irrefl := fun w hw => by
    obtain ⟨v, rfl⟩ := perm.surjective w
    rw [← (hrow _).mem_iff, List.mem_map_of_injective perm.injective] at hw
    exact Csr.Simple.irrefl v hw

/-- Relabelling the graph and its colours, in any order of the neighbours, relabels the result: the
    class numbers themselves go with the vertices. -/
theorem run1WL_relabeled (csr csr' : Csr n) [csr.Simple] (perm : Equiv.Perm (Fin n))
    (hrow : ∀ v, ((csr.row v).map perm).Perm (csr'.row (perm v)))
    (vertexColors : Option (Fin n → ℤ)) :
    ∃ result, (∀ fuel, n ≤ fuel → run1WL fuel csr vertexColors = some result) ∧
      ∃ result', (∀ fuel, n ≤ fuel →
          run1WL fuel csr' (vertexColors.map (· ∘ perm.symm)) = some result') ∧
        ∀ v, result' (perm v) = result v := by
  have := simple_of_row_perm hrow
  obtain ⟨result, hrun, -⟩ := run1WL_spec csr vertexColors
  obtain ⟨result', hrun', -⟩ := run1WL_spec csr' (vertexColors.map (· ∘ perm.symm))
  refine ⟨result, hrun, result', hrun', fun v => ?_⟩
  refine run1WL_carried hrow ?_ (hrun' n le_rfl) v
  rw [Option.map_map, Function.comp_def]
  simpa [Function.comp_def] using hrun n le_rfl

/-- On a path of three vertices, one end of it marked: the path read from its other end. -/
theorem run1WL_relabeled_path :
    ∃ result, (∀ fuel, 3 ≤ fuel → run1WL fuel (Graph.ofEdges 3 [(0, 1), (1, 2)]).toCsr
        (some fun v => if v.val = 2 then 1 else 0) = some result) ∧
      ∃ result', (∀ fuel, 3 ≤ fuel → run1WL fuel (Graph.ofEdges 3 [(0, 1), (1, 2)]).toCsr
          ((some fun v => if v.val = 2 then 1 else 0).map (· ∘ (Equiv.swap (0 : Fin 3) 2).symm)) = some result') ∧
        ∀ v, result' (Equiv.swap (0 : Fin 3) 2 v) = result v :=
  run1WL_relabeled (Graph.ofEdges 3 [(0, 1), (1, 2)]).toCsr (Graph.ofEdges 3 [(0, 1), (1, 2)]).toCsr
    (Equiv.swap (0 : Fin 3) (2 : Fin 3)) (by decide) (some fun v => if v.val = 2 then 1 else 0)

end Dialysis.Refinement
