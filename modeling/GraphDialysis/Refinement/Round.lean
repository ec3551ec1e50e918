import GraphDialysis.Refinement.PaigeTarjan

/-! A round of the native kernel is a step of the abstract partition refinement. The counters are
    read off the colouring by `Bounded`; here the numbering loop is shown to give the ids of
    `Splitter.newId` and to queue what the abstract split queues (`allocate_spec`), and the moving
    loop to carry every counted vertex to its new class (`foldl_move`). `splitUpColor_rep` puts them
    together for one class and `round_rep` for a whole round. -/

namespace Dialysis.Refinement.Kernel
open Lib Lib.Splitter
variable {n : ℕ}

/-- The kernel's classes and queue are those of the abstract state. -/
structure Rep (k : Kernel n) (st : Splitter.State (Fin n)) : Prop extends Classes k where
  coloring : k.coloring = st.color
  stk : k.stk = st.queue
  lastColor : k.lastColor = st.last
  inStack : ∀ c, k.inStack c = true ↔ c ∈ k.stk

/-- All counters are clear. -/
structure Clean (k : Kernel n) : Prop where
  cd : ∀ v, k.cd v = 0
  pdcc : ∀ c, k.pdcc c = []
  maxCD : ∀ c, k.maxCD c = 0

/-- The two kernels have the same counters. -/
structure SameCounters (k k' : Kernel n) : Prop where
  cd : k'.cd = k.cd
  pdcc : k'.pdcc = k.pdcc
  maxCD : k'.maxCD = k.maxCD
  minCD : k'.minCD = k.minCD

theorem SameCounters.trans {k k' k'' : Kernel n} (h : SameCounters k k') (h' : SameCounters k' k'') :
    SameCounters k k'' :=
  ⟨h'.cd.trans h.cd, h'.pdcc.trans h.pdcc, h'.maxCD.trans h.maxCD, h'.minCD.trans h.minCD⟩

/-! ### The degrees of a class -/

/-- The class `c` about to be split, with the counters of its round. -/
structure Pending (d : Fin n → ℕ) (k : Kernel n) (c : ℕ) : Prop extends Classes k where
  cd : k.cd = d
  pdcc_nodup : (k.pdcc c).Nodup
  mem_pdcc : ∀ w, w ∈ k.pdcc c ↔ k.coloring w = c ∧ 0 < d w
  le_maxCD : ∀ w, k.coloring w = c → d w ≤ k.maxCD c
  minCD_le : ∀ w, k.coloring w = c → k.minCD c ≤ d w
  minCD_used : ∃ w, k.coloring w = c ∧ d w = k.minCD c

theorem foldl_count {α : Type*} (f : α → ℕ) : ∀ (l : List α) (h : ℕ → ℕ) (i : ℕ),
    l.foldl (fun h v => Function.update h (f v) (h (f v) + 1)) h i =
      h i + l.countP fun v => f v = i
  | [], _, _ => rfl
  | x :: l, h, i => by
    rw [List.foldl_cons, foldl_count f l, List.countP_cons]
    by_cases hx : f x = i
    · subst hx; rw [Function.update_self]; simp; omega
    · rw [Function.update_of_ne (Ne.symm hx)]; simp [hx]

/-- The kernel's table of degrees counts the vertices of the class. -/
theorem Pending.num {d : Fin n → ℕ} {k : Kernel n} {c : ℕ} (h : Pending d k c) (i : ℕ) :
    k.num c i = Splitter.num d k.coloring c i := by
  have hperm : ((k.cc c).filter fun v => 0 < d v).Perm (k.pdcc c) :=
    (List.perm_ext_iff_of_nodup ((h.nodup c).filter _) h.pdcc_nodup).mpr fun v => by
      rw [List.mem_filter, h.mem, h.mem_pdcc, decide_eq_true_eq]
  have hcount : Splitter.num d k.coloring c i = (k.cc c).countP fun v => d v = i := by
    rw [Splitter.num, List.countP_eq_length_filter, ← List.toFinset_card_of_nodup ((h.nodup c).filter _)]
    congr 1
    ext v
    simp [h.mem]
  rw [Kernel.num, foldl_count, hcount, h.cd]
  by_cases hi : i = 0
  · subst hi
    have hnone : (k.pdcc c).countP (fun v => d v = 0) = 0 :=
      List.countP_eq_zero.mpr fun v hv => by
        have := ((h.mem_pdcc v).mp hv).2
        simp only [decide_eq_true_eq]; omega
    have hall := List.length_eq_countP_add_countP (fun v => 0 < d v) (l := k.cc c)
    rw [hnone, Function.update_self, ← hperm.length_eq, ← List.countP_eq_length_filter, hall]
    have hzero : (k.cc c).countP (fun v => ¬decide (0 < d v) = true) =
        (k.cc c).countP fun v => d v = 0 :=
      List.countP_congr fun v _ => by simp
    omega
  · rw [Function.update_of_ne hi, ← hperm.countP_eq, List.countP_filter, zero_add]
    refine List.countP_congr fun v _ => ?_
    simp only [Bool.and_eq_true, decide_eq_true_eq]
    omega

/-- The degrees present, as the kernel runs through them. -/
theorem Pending.degrees {d : Fin n → ℕ} {k : Kernel n} {c : ℕ} (h : Pending d k c) :
    Splitter.degrees d k.coloring c = (List.range (k.maxCD c + 1)).filter fun i => 0 < k.num c i := by
  refine (degrees_sorted d k.coloring c).eq_of_mem_iff (List.pairwise_lt_range.filter _) fun i => ?_
  rw [mem_degrees, List.mem_filter, List.mem_range, decide_eq_true_eq, h.num, Splitter.num,
    Finset.card_pos]
  constructor
  · rintro ⟨v, hv, rfl⟩
    exact ⟨Nat.lt_succ_of_le (h.le_maxCD v hv), v, by simp [hv]⟩
  · rintro ⟨-, v, hv⟩
    exact ⟨v, by simpa using hv⟩

theorem Pending.cons {d : Fin n → ℕ} {k : Kernel n} {c : ℕ} (h : Pending d k c) :
    ∃ fresh, Splitter.degrees d k.coloring c = k.minCD c :: fresh := by
  obtain ⟨w, hw, hd⟩ := h.minCD_used
  have hmem := mem_degrees.mpr ⟨w, hw, hd⟩
  have hsorted := degrees_sorted d k.coloring c
  cases hD : Splitter.degrees d k.coloring c with
  | nil => rw [hD] at hmem; cases hmem
  | cons i fresh =>
    rw [hD] at hmem hsorted
    obtain ⟨v, hv, rfl⟩ := mem_degrees.mp (hD ▸ List.mem_cons_self : i ∈ Splitter.degrees d k.coloring c)
    rcases List.mem_cons.mp hmem with he | hlt
    · exact ⟨fresh, by rw [he]⟩
    · have := (List.pairwise_cons.mp hsorted).1 _ hlt
      have := h.minCD_le v hv
      omega

/-- Degrees that do not occur never win, so only those present matter. -/
theorem largest_filter (num : ℕ → ℕ) : ∀ (l : List ℕ) (b : ℕ),
    largest num b l = largest num b (l.filter fun i => 0 < num i)
  | [], _ => rfl
  | i :: l, b => by
    by_cases hi : 0 < num i
    · rw [List.filter_cons_of_pos (by simpa using hi), largest, largest, List.foldl_cons,
        List.foldl_cons]
      exact largest_filter num l _
    · rw [List.filter_cons_of_neg (by simpa using hi), largest, List.foldl_cons,
        if_neg (by omega)]
      exact largest_filter num l b

/-- The kernel looks for the largest fragment from degree zero on, present or not. -/
theorem Pending.maxIdx {d : Fin n → ℕ} {k : Kernel n} {c : ℕ} (h : Pending d k c) {fresh : List ℕ}
    (hD : Splitter.degrees d k.coloring c = k.minCD c :: fresh) :
    (List.range' 1 (k.maxCD c)).foldl (fun m i => if k.num c m < k.num c i then i else m) 0 =
      largest (k.num c) (k.minCD c) fresh := by
  change largest (k.num c) 0 (List.range' 1 (k.maxCD c)) = _
  rw [h.degrees, List.range_eq_range', List.range'_succ] at hD
  rw [largest_filter]
  by_cases h0 : 0 < k.num c 0
  · rw [List.filter_cons_of_pos (by simpa using h0)] at hD
    obtain ⟨h1, h2⟩ := List.cons.inj hD
    rw [← h1, ← h2]
  · rw [List.filter_cons_of_neg (by simpa using h0)] at hD
    have hpos : 0 < k.num c (k.minCD c) := by
      have := List.mem_filter.mp (hD ▸ List.mem_cons_self : k.minCD c ∈ List.filter _ _)
      simpa using this.2
    rw [hD, largest, List.foldl_cons, if_pos (by omega), largest]

/-! ### Numbering the fragments -/

/-- Everything but the queue and the number of ids is untouched. -/
structure SameVertices (k k' : Kernel n) : Prop extends SameCounters k k' where
  coloring : k'.coloring = k.coloring
  cc : k'.cc = k.cc

theorem SameVertices.rfl {k : Kernel n} : SameVertices k k := ⟨⟨.refl _, .refl _, .refl _, .refl _⟩,
  .refl _, .refl _⟩

theorem SameVertices.trans {k k' k'' : Kernel n} (h : SameVertices k k') (h' : SameVertices k' k'') :
    SameVertices k k'' :=
  ⟨h.toSameCounters.trans h'.toSameCounters, h'.coloring.trans h.coloring, h'.cc.trans h.cc⟩

/-- Queueing a class keeps the flags in step with the queue. -/
theorem inStack_push {k : Kernel n} (h : ∀ c, k.inStack c = true ↔ c ∈ k.stk) (x : ℕ) (c : ℕ) :
    Function.update k.inStack x true c = true ↔ c ∈ k.stk ++ [x] := by
  by_cases hc : c = x
  · subst hc; simp
  · rw [Function.update_of_ne hc, h]; simp [hc]

/-- The fragment of least degree keeps the id. -/
theorem allocate_least {num : ℕ → ℕ} {color : ℕ} (maxIdx : ℕ) (queued : Bool) {k : Kernel n}
    (nm : ℕ → Option ℕ) (hnum : num (k.minCD color) ≠ 0) (hin : ∀ c, k.inStack c = true ↔ c ∈ k.stk) :
    let p := allocate num color maxIdx queued (k, nm) (k.minCD color)
    SameVertices k p.1 ∧ p.1.lastColor = k.lastColor ∧
      p.1.stk = k.stk ++ (if queued = false ∧ maxIdx ≠ k.minCD color then [color] else []) ∧
      (∀ c, p.1.inStack c = true ↔ c ∈ p.1.stk) ∧
      p.2 = Function.update nm (k.minCD color) (some color) := by
  simp only [allocate, if_neg hnum, if_true]
  cases queued <;> by_cases hm : maxIdx = k.minCD color
  · simp [hm, hin, SameVertices.rfl]
  · simp only [hm, Bool.not_false, ne_eq, not_false_eq_true, decide_true, Bool.and_self, if_true,
      and_self]
    exact ⟨⟨⟨rfl, rfl, rfl, rfl⟩, rfl, rfl⟩, trivial, trivial, inStack_push hin color, trivial⟩
  · simp [hm, hin, SameVertices.rfl]
  · simp [hm, hin, SameVertices.rfl]

/-- Every other fragment takes the next id. -/
theorem allocate_fresh {num : ℕ → ℕ} {color i : ℕ} (maxIdx : ℕ) (queued : Bool) {k : Kernel n}
    (nm : ℕ → Option ℕ) (hnum : num i ≠ 0) (hi : i ≠ k.minCD color)
    (hin : ∀ c, k.inStack c = true ↔ c ∈ k.stk) :
    let p := allocate num color maxIdx queued (k, nm) i
    SameVertices k p.1 ∧ p.1.lastColor = k.lastColor + 1 ∧
      p.1.stk = k.stk ++ (if queued = true ∨ i ≠ maxIdx then [k.lastColor + 1] else []) ∧
      (∀ c, p.1.inStack c = true ↔ c ∈ p.1.stk) ∧
      p.2 = Function.update nm i (some (k.lastColor + 1)) := by
  simp only [allocate, if_neg hnum, if_neg hi]
  by_cases hq : queued = true ∨ i ≠ maxIdx
  · have hb : (queued || decide (i ≠ maxIdx)) = true := by simpa using hq
    simp only [if_pos hq, hb, if_true]
    exact ⟨⟨⟨rfl, rfl, rfl, rfl⟩, rfl, rfl⟩, trivial, trivial, inStack_push hin _, trivial⟩
  · have hb : (queued || decide (i ≠ maxIdx)) = false := by
      rw [Bool.eq_false_iff]; simpa using hq
    simp only [if_neg hq, hb, Bool.false_eq_true, if_false, List.append_nil]
    exact ⟨⟨⟨rfl, rfl, rfl, rfl⟩, rfl, rfl⟩, trivial, trivial, hin, trivial⟩

/-- The remaining degrees in order, `k` being the kernel after the `done` ones. -/
theorem foldl_allocate_fresh {num : ℕ → ℕ} (color maxIdx last : ℕ) (queued : Bool) {fresh : List ℕ}
    (hnd : fresh.Nodup) (hnum : ∀ i ∈ fresh, num i ≠ 0) :
    ∀ (rest done : List ℕ) (k : Kernel n) (nm : ℕ → Option ℕ), fresh = done ++ rest →
      k.minCD color ∉ fresh → k.lastColor = last + done.length →
      (∀ c, k.inStack c = true ↔ c ∈ k.stk) →
      let p := rest.foldl (allocate num color maxIdx queued) (k, nm)
      SameVertices k p.1 ∧ p.1.lastColor = last + fresh.length ∧
        p.1.stk = k.stk ++ (rest.filter fun i => queued = true ∨ i ≠ maxIdx).map
          (newId color last (k.minCD color) fresh) ∧
        (∀ c, p.1.inStack c = true ↔ c ∈ p.1.stk) ∧
        (∀ i, i ∉ rest → p.2 i = nm i) ∧
        ∀ i ∈ rest, p.2 i = some (newId color last (k.minCD color) fresh i)
  | [], done, k, nm, hf, _, hlast, hin =>
    ⟨SameVertices.rfl, by rw [hf, List.append_nil]; exact hlast, by simp, hin, fun _ _ => rfl,
      by simp⟩
  | i :: rest, done, k, nm, hf, hmin, hlast, hin => by
    have hi : i ∈ fresh := by rw [hf]; simp
    have hne : i ≠ k.minCD color := fun h => hmin (h ▸ hi)
    obtain ⟨hs, hl, hstk, hin', hnm⟩ := allocate_fresh maxIdx queued nm
      (hnum i hi) hne hin
    rw [hf] at hnd
    have hidx : fresh.idxOf i = done.length := by
      have hnot : i ∉ done := fun h => List.disjoint_of_nodup_append hnd h List.mem_cons_self
      rw [hf, List.idxOf_append_of_notMem hnot, List.idxOf_cons_self, Nat.add_zero]
    have hid : newId color last (k.minCD color) fresh i = k.lastColor + 1 := by
      rw [newId, if_neg hne, hidx, hlast]; omega
    rw [List.foldl_cons]
    generalize hp : allocate num color maxIdx queued (k, nm) i = p at hs hl hstk hin' hnm
    obtain ⟨k', nm'⟩ := p
    dsimp only at hs hl hstk hin' hnm
    obtain ⟨hs', hl', hstk', hin'', hout, hins⟩ := foldl_allocate_fresh color maxIdx
      last queued (hf ▸ hnd) hnum rest
      (done ++ [i]) k' nm' (by rw [hf, List.append_assoc, List.singleton_append])
      (by rw [hs.minCD]; exact hmin) (by rw [hl, hlast, List.length_append, List.length_singleton]; omega)
      hin'
    have hnotin : i ∉ rest := (List.nodup_cons.mp (List.nodup_append.mp hnd).2.1).1
    refine ⟨hs.trans hs', hl', ?_, hin'', fun j hj => ?_, fun j hj => ?_⟩
    · rw [hstk', hstk, hs.minCD, List.append_assoc]
      congr 1
      by_cases hq : queued = true ∨ i ≠ maxIdx
      · rw [if_pos hq, List.filter_cons_of_pos (by simpa using hq), List.map_cons, hid,
          List.singleton_append]
      · rw [if_neg hq, List.filter_cons_of_neg (by simpa using hq), List.nil_append]
    · rw [List.mem_cons, not_or] at hj
      rw [hout j hj.2, hnm, Function.update_of_ne hj.1]
    · rcases List.mem_cons.mp hj with rfl | hj
      · rw [hout j hnotin, hnm, Function.update_self, hid]
      · rw [hins j hj, hs.minCD]

/-- The numbering loop over all degrees up to the largest. -/
theorem allocate_spec {d : Fin n → ℕ} {k : Kernel n} {c : ℕ} (maxIdx : ℕ) (h : Pending d k c)
    (hin : ∀ c, k.inStack c = true ↔ c ∈ k.stk) {fresh : List ℕ}
    (hD : Splitter.degrees d k.coloring c = k.minCD c :: fresh) :
    let p := (List.range (k.maxCD c + 1)).foldl (allocate (k.num c) c maxIdx (k.inStack c))
      (k, fun _ => none)
    SameVertices k p.1 ∧ p.1.lastColor = k.lastColor + fresh.length ∧
      p.1.stk = k.stk ++ (if c ∉ k.stk ∧ maxIdx ≠ k.minCD c then [c] else []) ++
        (fresh.filter fun i => c ∈ k.stk ∨ i ≠ maxIdx).map (newId c k.lastColor (k.minCD c) fresh) ∧
      (∀ x, p.1.inStack x = true ↔ x ∈ p.1.stk) ∧
      ∀ i ∈ k.minCD c :: fresh, p.2 i = some (newId c k.lastColor (k.minCD c) fresh i) := by
  have hskip : (List.range (k.maxCD c + 1)).foldl (allocate (k.num c) c maxIdx (k.inStack c))
      (k, fun _ => none) = (k.minCD c :: fresh).foldl (allocate (k.num c) c maxIdx (k.inStack c))
        (k, fun _ => none) := by
    rw [← hD, h.degrees, List.foldl_filter]
    congr 1
    funext p i
    by_cases hi : k.num c i = 0
    · rw [if_neg (by simp [hi]), allocate, if_pos hi]
    · rw [if_pos (by simpa using Nat.pos_of_ne_zero hi)]
  have hpos : ∀ i ∈ k.minCD c :: fresh, k.num c i ≠ 0 := by
    intro i hi
    rw [← hD, h.degrees, List.mem_filter, decide_eq_true_eq] at hi
    omega
  obtain ⟨hl, hnd⟩ := degrees_eq_cons hD
  obtain ⟨hs, hlast, hstk, hin', hnm⟩ := allocate_least maxIdx (k.inStack c)
    (fun _ => none) (hpos _ List.mem_cons_self) hin
  dsimp only
  rw [hskip, List.foldl_cons]
  generalize allocate (k.num c) c maxIdx (k.inStack c) (k, fun _ => none) (k.minCD c) = p
    at hs hlast hstk hin' hnm
  obtain ⟨k', nm'⟩ := p
  dsimp only at hs hlast hstk hin' hnm
  obtain ⟨hs', hlast', hstk', hin'', hout, hins⟩ := foldl_allocate_fresh c maxIdx
    k.lastColor (k.inStack c) hnd
    (fun i hi => hpos i (List.mem_cons_of_mem _ hi)) fresh [] k' nm' rfl (by rw [hs.minCD]; exact hl)
    hlast hin'
  refine ⟨hs.trans hs', hlast', ?_, hin'', fun i hi => ?_⟩
  · rw [hstk', hstk, hs.minCD]
    simp only [hin c, ← Bool.not_eq_true]
  · rcases List.mem_cons.mp hi with rfl | hi
    · rw [hout _ hl, hnm, Function.update_self, newId_least]
    · rw [hins i hi, hs.minCD]

/-! ### Moving the vertices -/

theorem swapRemove_perm (v : Fin n) (l : List (Fin n)) : (swapRemove v l).Perm (l.erase v) := by
  rcases List.eq_nil_or_concat l with rfl | ⟨init, b, rfl⟩
  · rfl
  · rw [List.concat_eq_append, swapRemove, List.getLast?_concat]
    dsimp only
    have hset : ∀ l : List (Fin n), v ∈ l → (l.set (l.idxOf v) b).Perm (b :: l.erase v) := by
      intro l
      induction l with
      | nil => intro h; cases h
      | cons x l ih =>
        intro hv
        by_cases hx : x = v
        · subst hx; simp
        · have hv' : v ∈ l := (List.mem_cons.mp hv).resolve_left (Ne.symm hx)
          rw [List.idxOf_cons_ne _ hx, List.set_cons_succ, List.erase_cons_tail (by simpa using hx)]
          exact ((ih hv').cons x).trans (List.Perm.swap b x _)
    by_cases hv : v ∈ init
    · have hlt := List.idxOf_lt_length_of_mem hv
      rw [if_pos (List.mem_append_left _ hv), List.idxOf_append_of_mem hv, List.set_append_left _ _ hlt,
        List.dropLast_concat, List.erase_append_left _ hv]
      exact (hset init hv).trans (List.perm_append_singleton b _).symm
    · by_cases hb : v = b
      · subst hb
        rw [if_pos (by simp), List.idxOf_append_of_notMem hv, List.idxOf_cons_self,
          List.set_append_right _ _ (by omega), List.erase_append_right _ hv]
        simp
      · have hnot : v ∉ init ++ [b] := by simp [hv, hb]
        rw [if_neg hnot, List.erase_of_not_mem hnot]

/-- Moving one vertex that is still in the class. -/
theorem move_classes {k : Kernel n} (hk : Classes k) {nm : ℕ → Option ℕ} {c id : ℕ} {v : Fin n}
    (hv : k.coloring v = c) (hnm : nm (k.cd v) = some id) : Classes (move nm c k v) ∧
      (move nm c k v).coloring = Function.update k.coloring v id ∧
      SameCounters k (move nm c k v) ∧ (move nm c k v).stk = k.stk ∧
      (move nm c k v).lastColor = k.lastColor ∧ (move nm c k v).inStack = k.inStack := by
  simp only [move, hnm]
  by_cases hid : id = c
  · subst hid
    simp only [ne_eq, not_true_eq_false, if_false]
    exact ⟨hk, by rw [← hv, Function.update_eq_self], ⟨rfl, rfl, rfl, rfl⟩, trivial, trivial, trivial⟩
  · simp only [ne_eq, hid, not_false_eq_true, if_true]
    refine ⟨⟨fun x => ?_, fun x w => ?_⟩, trivial, ⟨rfl, rfl, rfl, rfl⟩, trivial, trivial, trivial⟩
    · dsimp only
      by_cases hx : x = id
      · subst hx
        rw [Function.update_self, Function.update_of_ne hid]
        refine (hk.nodup x).append (List.nodup_singleton v) fun w hw hw' => ?_
        rw [List.mem_singleton] at hw'
        rw [hk.mem, hw', hv] at hw
        exact hid hw.symm
      · rw [Function.update_of_ne hx]
        by_cases hxc : x = c
        · subst hxc
          rw [Function.update_self, (swapRemove_perm v _).nodup_iff]
          exact (hk.nodup x).erase v
        · rw [Function.update_of_ne hxc]; exact hk.nodup x
    · dsimp only
      by_cases hx : x = id
      · subst hx
        rw [Function.update_self, Function.update_of_ne hid, List.mem_append, hk.mem,
          List.mem_singleton]
        by_cases hw : w = v
        · subst hw; simp
        · rw [Function.update_of_ne hw]; simp [hw]
      · rw [Function.update_of_ne hx]
        by_cases hxc : x = c
        · subst hxc
          rw [Function.update_self, (swapRemove_perm v _).mem_iff, (hk.nodup x).mem_erase_iff, hk.mem]
          by_cases hw : w = v
          · subst hw; simpa using Ne.symm hx
          · rw [Function.update_of_ne hw]; simp [hw]
        · rw [Function.update_of_ne hxc, hk.mem]
          by_cases hw : w = v
          · subst hw
            rw [Function.update_self, hv]
            exact ⟨fun h => absurd h.symm hxc, fun h => absurd h.symm hx⟩
          · rw [Function.update_of_ne hw]

/-- The moving loop over the counted vertices of the class. -/
theorem foldl_move (nm : ℕ → Option ℕ) (c : ℕ) (id : Fin n → ℕ) : ∀ (l : List (Fin n)) (k : Kernel n),
    Classes k → l.Nodup → (∀ v ∈ l, k.coloring v = c ∧ nm (k.cd v) = some (id v)) →
      let k' := l.foldl (move nm c) k
      Classes k' ∧ (∀ v, k'.coloring v = if v ∈ l then id v else k.coloring v) ∧
        SameCounters k k' ∧ k'.stk = k.stk ∧ k'.lastColor = k.lastColor ∧ k'.inStack = k.inStack
  | [], k, hk, _, _ => ⟨hk, by simp, ⟨rfl, rfl, rfl, rfl⟩, rfl, rfl, rfl⟩
  | x :: l, k, hk, hnd, hl => by
    obtain ⟨hx, hnd⟩ := List.nodup_cons.mp hnd
    obtain ⟨hxc, hxn⟩ := hl x List.mem_cons_self
    obtain ⟨hcl, hcol, hsame, hstk, hlast, hin⟩ := move_classes hk hxc hxn
    obtain ⟨hcl', hcol', hsame', hstk', hlast', hin'⟩ := foldl_move nm c id l (move nm c k x) hcl hnd
      fun v hv => by
        have hne : v ≠ x := fun h => hx (h ▸ hv)
        rw [hcol, Function.update_of_ne hne, hsame.cd]
        exact hl v (List.mem_cons_of_mem _ hv)
    rw [List.foldl_cons]
    refine ⟨hcl', fun v => ?_, hsame.trans hsame', hstk'.trans hstk, hlast'.trans hlast,
      hin'.trans hin⟩
    rw [hcol', hcol]
    by_cases hvx : v = x
    · subst hvx; rw [if_neg hx, Function.update_self, if_pos List.mem_cons_self]
    · rw [Function.update_of_ne hvx]
      simp [hvx]

/-! ### One class and one round -/

/-- Splitting a pending class does what the abstract split does, and leaves the counters alone. -/
theorem splitUpColor_rep {d : Fin n → ℕ} {k : Kernel n} {st : Splitter.State (Fin n)} {c : ℕ}
    (hrep : Rep k st) (h : Pending d k c) :
    Rep (k.splitUpColor c) (splitClass d st c) ∧ SameCounters k (k.splitUpColor c) := by
  obtain ⟨fresh, hD⟩ := h.cons
  have hnum : k.num c = Splitter.num d st.color c := funext fun i => by rw [h.num i, hrep.coloring]
  obtain ⟨hs, hlast, hstk, hin, hnm⟩ := allocate_spec (largest (k.num c) (k.minCD c) fresh) h
    hrep.inStack hD
  simp only [splitUpColor, h.maxIdx hD]
  generalize (List.range (k.maxCD c + 1)).foldl
    (allocate (k.num c) c (largest (k.num c) (k.minCD c) fresh) (k.inStack c)) (k, fun _ => none) = p
    at hs hlast hstk hin hnm
  obtain ⟨k', nm⟩ := p
  dsimp only at hs hlast hstk hin hnm
  have hcl : Classes k' := ⟨fun x => by rw [hs.cc]; exact h.nodup x,
    fun x v => by rw [hs.cc, hs.coloring]; exact h.mem x v⟩
  have hdeg : ∀ v, k.coloring v = c → d v ∈ k.minCD c :: fresh := fun v hv =>
    hD ▸ mem_degrees.mpr ⟨v, hv, rfl⟩
  obtain ⟨hcl', hcol, hsame, hstk', hlast', hin'⟩ := foldl_move _ c
    (fun v => newId c k.lastColor (k.minCD c) fresh (d v)) (k.pdcc c) k' hcl h.pdcc_nodup
    fun v hv => by
      have hv' := ((h.mem_pdcc v).mp hv).1
      rw [hs.coloring, hs.cd, h.cd]
      exact ⟨hv', hnm _ (hdeg v hv')⟩
  have hsplit : splitClass d st c =
      { color := fun v => if st.color v = c then newId c st.last (k.minCD c) fresh (d v) else st.color v
        queue := st.queue ++
          (if c ∉ st.queue ∧ largest (k.num c) (k.minCD c) fresh ≠ k.minCD c then [c] else []) ++
          (fresh.filter fun i => c ∈ st.queue ∨ i ≠ largest (k.num c) (k.minCD c) fresh).map
            (newId c st.last (k.minCD c) fresh)
        last := st.last + fresh.length } := by
    rw [splitClass, ← hrep.coloring, hD, hnum, hrep.coloring]
  refine ⟨⟨hcl', ?_, ?_, ?_, ?_⟩, hs.toSameCounters.trans hsame⟩
  · funext v
    rw [hcol, hsplit, hs.coloring, hrep.lastColor]
    dsimp only
    rw [← hrep.coloring]
    by_cases hv : k.coloring v = c
    · rw [if_pos hv]
      by_cases hmem : v ∈ k.pdcc c
      · rw [if_pos hmem]
      · -- an uncounted member has degree zero, which is then the least
        have hzero : d v = 0 := by
          by_contra hne
          exact hmem ((h.mem_pdcc v).mpr ⟨hv, Nat.pos_of_ne_zero hne⟩)
        have hleast : d v = k.minCD c := by have := h.minCD_le v hv; omega
        rw [if_neg hmem, hleast, newId_least, hv]
    · rw [if_neg hv, if_neg fun hmem => hv ((h.mem_pdcc v).mp hmem).1]
  · rw [hstk', hstk, hsplit, hrep.stk, hrep.lastColor]
  · rw [hlast', hlast, hsplit, hrep.lastColor]
  · intro x; rw [hin', hstk']; exact hin x

/-- The counters of a round, seen from a kernel in which some classes have been split already. -/
theorem Bounded.pending {d color : Fin n → ℕ} {k₀ k : Kernel n} {adj : Finset ℕ}
    (hb : Bounded d color k₀ adj) (hs : SameCounters k₀ k) (hk : Classes k) {c : ℕ} (hc : c ∈ adj)
    (hcol : ∀ w, k.coloring w = c ↔ color w = c) : Pending d k c where
  toClasses := hk
  cd := hs.cd.trans hb.cd
  pdcc_nodup := by rw [hs.pdcc]; exact hb.pdcc_nodup c
  mem_pdcc := fun w => by rw [hs.pdcc, hb.mem_pdcc, hcol]
  le_maxCD := fun w hw => by
    have := hb.le_maxCD w
    rw [(hcol w).mp hw] at this
    rwa [hs.maxCD]
  minCD_le := fun w hw => by rw [hs.minCD]; exact hb.minCD_le c hc w ((hcol w).mp hw)
  minCD_used := by
    obtain ⟨w, hw, hd⟩ := hb.minCD_used c hc
    exact ⟨w, (hcol w).mpr hw, by rw [hs.minCD, hd]⟩

/-- Splitting class after class. -/
theorem foldl_splitUpColor {d color : Fin n → ℕ} {k₀ : Kernel n} {adj : Finset ℕ}
    (hb : Bounded d color k₀ adj) : ∀ (cs : List ℕ) (k : Kernel n) (st : Splitter.State (Fin n)),
    cs.Nodup → (∀ c ∈ cs, c ∈ adj ∧ c ≤ st.last ∧ ∀ w, st.color w = c ↔ color w = c) →
    Rep k st → SameCounters k₀ k →
      Rep (cs.foldl splitUpColor k) (cs.foldl (splitClass d) st) ∧
        SameCounters k₀ (cs.foldl splitUpColor k)
  | [], _, _, _, _, hrep, hs => ⟨hrep, hs⟩
  | c :: cs, k, st, hnd, hcs, hrep, hs => by
    obtain ⟨hc, hnd⟩ := List.nodup_cons.mp hnd
    obtain ⟨hadj, -, hcol⟩ := hcs c List.mem_cons_self
    obtain ⟨hrep', hs'⟩ := splitUpColor_rep hrep
      (hb.pending hs hrep.toClasses hadj fun w => by rw [hrep.coloring]; exact hcol w)
    refine foldl_splitUpColor hb cs _ _ hnd (fun x hx => ?_) hrep' (hs.trans hs')
    obtain ⟨hxadj, hle, hxcol⟩ := hcs x (List.mem_cons_of_mem _ hx)
    have hne : x ≠ c := fun he => hc (he ▸ hx)
    exact ⟨hxadj, hle.trans (splitClass_last d st c), fun w =>
      (splitClass_other hle hne w).trans (hxcol w)⟩

theorem foldl_zero {α : Type*} [DecidableEq α] : ∀ (l : List α) (f : α → ℕ) (x : α),
    l.foldl (fun f v => Function.update f v 0) f x = if x ∈ l then 0 else f x
  | [], _, _ => by simp
  | y :: l, f, x => by
    rw [List.foldl_cons, foldl_zero l]
    by_cases hx : x ∈ l
    · rw [if_pos hx, if_pos (List.mem_cons_of_mem _ hx)]
    · rw [if_neg hx]
      by_cases hy : x = y
      · subst hy; simp
      · rw [Function.update_of_ne hy, if_neg (by simp [hx, hy])]

/-- Clearing the adjacent classes clears everything that was counted. -/
theorem foldl_cleanup : ∀ (l : List ℕ) (k : Kernel n),
    SameClasses k (l.foldl cleanup k) ∧
    (∀ v, k.cd v = 0 ∨ (∃ c ∈ l, v ∈ k.pdcc c) → (l.foldl cleanup k).cd v = 0) ∧
    (∀ c, k.pdcc c = [] ∨ c ∈ l → (l.foldl cleanup k).pdcc c = []) ∧
    ∀ c, k.maxCD c = 0 ∨ c ∈ l → (l.foldl cleanup k).maxCD c = 0
  | [], k => by simp [SameClasses.mk]
  | x :: l, k => by
    obtain ⟨⟨h₁, h₂, h₃, h₄, h₅⟩, hcd, hpdcc, hmax⟩ := foldl_cleanup l (cleanup k x)
    rw [List.foldl_cons]
    refine ⟨⟨h₁, h₂, h₃, h₄, h₅⟩, fun v hv => hcd v ?_, fun c hc => hpdcc c ?_, fun c hc => hmax c ?_⟩
    · simp only [cleanup, foldl_zero]
      by_cases hx : v ∈ k.pdcc x
      · exact Or.inl (if_pos hx)
      · rcases hv with h0 | ⟨c, hc, hmem⟩
        · exact Or.inl (by rw [if_neg hx, h0])
        · have hne : c ≠ x := fun h => hx (h ▸ hmem)
          exact Or.inr ⟨c, (List.mem_cons.mp hc).resolve_left hne, by rwa [Function.update_of_ne hne]⟩
    · simp only [cleanup]
      by_cases hx : c = x
      · subst hx; exact Or.inl (Function.update_self ..)
      · rw [Function.update_of_ne hx]
        exact hc.imp_right fun h => (List.mem_cons.mp h).resolve_left hx
    · simp only [cleanup]
      by_cases hx : c = x
      · subst hx; exact Or.inl (Function.update_self ..)
      · rw [Function.update_of_ne hx]
        exact hc.imp_right fun h => (List.mem_cons.mp h).resolve_left hx

/-- A turn of the main loop is a step of the abstract refinement, and ends with clear counters. -/
theorem round_rep (csr : Csr n) [csr.Simple] {k : Kernel n} {st : Splitter.State (Fin n)}
    (hrep : Rep k st) (hclean : Clean k) (hdense : Dense st) (htidy : Tidy st) {cur : ℕ}
    {rest : List ℕ} (hq : k.stk = cur :: rest) :
    Rep (round csr k cur rest) (Splitter.step csr.row st) ∧ Clean (round csr k cur rest) := by
  have hq' : st.queue = cur :: rest := hrep.stk ▸ hq
  have hnd := htidy.nodup
  rw [hq', List.nodup_cons] at hnd
  -- popping
  have hpop : Rep { k with stk := rest, inStack := Function.update k.inStack cur false }
      { st with queue := rest } := by
    refine ⟨⟨hrep.nodup, hrep.mem⟩, hrep.coloring, rfl, hrep.lastColor, fun c => ?_⟩
    dsimp only
    by_cases hc : c = cur
    · subst hc; simpa using hnd.1
    · rw [Function.update_of_ne hc, hrep.inStack, hq]; simp [hc]
  generalize hk₀ : ({ k with stk := rest, inStack := Function.update k.inStack cur false } :
    Kernel n) = k₀ at hpop
  have hclean₀ : Clean k₀ := by subst hk₀; exact ⟨hclean.cd, hclean.pdcc, hclean.maxCD⟩
  -- counting
  obtain ⟨hsc, hb⟩ := calculateColorDegrees_spec csr hpop.toClasses hclean₀.cd hclean₀.pdcc
    hclean₀.maxCD cur
  simp only [round, hk₀]
  generalize calculateColorDegrees csr cur k₀ = p at hsc hb
  obtain ⟨k₁, adj⟩ := p
  dsimp only at hsc hb ⊢
  have hrep₁ : Rep k₁ { st with queue := rest } :=
    ⟨⟨fun c => by rw [hsc.cc]; exact hpop.nodup c,
      fun c v => by rw [hsc.cc, hsc.coloring]; exact hpop.mem c v⟩,
      hsc.coloring.trans hpop.coloring, hsc.stk.trans hpop.stk, hsc.lastColor.trans hpop.lastColor,
      fun c => by rw [hsc.inStack, hsc.stk]; exact hpop.inStack c⟩
  have hcol₀ : k₀.coloring = st.color := hpop.coloring
  rw [hcol₀] at hb
  -- the classes to split are those of varying degree
  have hmem : ∀ c, c ∈ ((adj.sort (· ≤ ·)).filter fun c => k₁.minCD c < k₁.maxCD c).insertionSort
      (· ≤ ·) ↔ c ∈ adj ∧ k₁.minCD c < k₁.maxCD c := by
    intro c
    rw [List.mem_insertionSort, List.mem_filter, Finset.mem_sort, decide_eq_true_eq]
  have hlist : ((adj.sort (· ≤ ·)).filter fun c => k₁.minCD c < k₁.maxCD c).insertionSort (· ≤ ·) =
      (List.range (st.last + 1)).filter fun c => c ∈ adj ∧ k₁.minCD c < k₁.maxCD c := by
    have hnodup : (((adj.sort (· ≤ ·)).filter fun c => k₁.minCD c < k₁.maxCD c).insertionSort
        (· ≤ ·)).Nodup :=
      (List.perm_insertionSort _ _).nodup_iff.mpr ((Finset.sort_nodup adj _).filter _)
    refine List.Pairwise.eq_of_mem_iff (r := (· < ·))
      (((List.pairwise_insertionSort _ _).and hnodup).imp fun h => lt_of_le_of_ne h.1 h.2)
      (List.pairwise_lt_range.filter _) fun c => ?_
    rw [hmem, List.mem_filter, List.mem_range, decide_eq_true_eq]
    refine ⟨fun h => ⟨?_, h⟩, fun h => h.2⟩
    obtain ⟨w, rfl, -⟩ := (hb.mem_adj c).mp h.1
    exact Nat.lt_succ_of_le (hdense.le w)
  have htriv : ∀ c ∈ List.range (st.last + 1),
      decide (c ∈ adj ∧ k₁.minCD c < k₁.maxCD c) = false → ∀ u v, st.color u = c → st.color v = c →
        degIn csr.row st.color cur u = degIn csr.row st.color cur v := by
    intro c _ hc u v hu hv
    rw [decide_eq_false_iff_not, not_and, not_lt] at hc
    by_cases hadj : c ∈ adj
    · have hle := hc hadj
      have hu₁ := hb.minCD_le c hadj u hu
      have hv₁ := hb.minCD_le c hadj v hv
      have hu₂ := hb.le_maxCD u
      have hv₂ := hb.le_maxCD v
      rw [hu] at hu₂
      rw [hv] at hv₂
      omega
    · have hzero : ∀ w, st.color w = c → degIn csr.row st.color cur w = 0 := by
        intro w hw
        by_contra hne
        exact hadj ((hb.mem_adj c).mpr ⟨w, hw, Nat.pos_of_ne_zero hne⟩)
      rw [hzero u hu, hzero v hv]
  have hstep : Splitter.step csr.row st =
      ((List.range (st.last + 1)).filter fun c => c ∈ adj ∧ k₁.minCD c < k₁.maxCD c).foldl
        (splitClass (degIn csr.row st.color cur)) { st with queue := rest } := by
    rw [Splitter.step, hq']
    exact foldl_splitClass_filter _ List.nodup_range
      (fun c hc => Nat.lt_succ_iff.mp (List.mem_range.mp hc)) htriv
  obtain ⟨hrep₂, hs₂⟩ := foldl_splitUpColor hb
    ((List.range (st.last + 1)).filter fun c => c ∈ adj ∧ k₁.minCD c < k₁.maxCD c) k₁
    { st with queue := rest } (List.nodup_range.filter _)
    (fun c hc => ⟨(of_decide_eq_true (List.mem_filter.mp hc).2).1,
      Nat.lt_succ_iff.mp (List.mem_range.mp (List.mem_filter.mp hc).1), fun _ => Iff.rfl⟩)
    hrep₁ ⟨rfl, rfl, rfl, rfl⟩
  rw [hlist, hstep]
  generalize ((List.range (st.last + 1)).filter fun c => c ∈ adj ∧ k₁.minCD c < k₁.maxCD c) = cs
    at hrep₂ hs₂
  -- clearing
  obtain ⟨hc, hcd, hpdcc, hmax⟩ := foldl_cleanup (adj.sort (· ≤ ·)) (cs.foldl splitUpColor k₁)
  refine ⟨⟨⟨fun c => by rw [hc.cc]; exact hrep₂.nodup c,
      fun c v => by rw [hc.cc, hc.coloring]; exact hrep₂.mem c v⟩,
      hc.coloring.trans hrep₂.coloring, hc.stk.trans hrep₂.stk, hc.lastColor.trans hrep₂.lastColor,
      fun c => by rw [hc.inStack, hc.stk]; exact hrep₂.inStack c⟩,
    fun v => hcd v ?_, fun c => hpdcc c ?_, fun c => hmax c ?_⟩
  · rw [hs₂.cd, hs₂.pdcc, hb.cd]
    by_cases h0 : degIn csr.row st.color cur v = 0
    · exact Or.inl h0
    · have hpos := Nat.pos_of_ne_zero h0
      exact Or.inr ⟨st.color v, (Finset.mem_sort _).mpr ((hb.mem_adj _).mpr ⟨v, rfl, hpos⟩),
        (hb.mem_pdcc _ v).mpr ⟨rfl, hpos⟩⟩
  · rw [hs₂.pdcc, Finset.mem_sort, hb.mem_adj]
    by_cases hnil : k₁.pdcc c = []
    · exact Or.inl hnil
    · obtain ⟨w, hw⟩ := List.exists_mem_of_ne_nil _ hnil
      exact Or.inr ⟨w, (hb.mem_pdcc c w).mp hw⟩
  · rw [hs₂.maxCD, Finset.mem_sort, hb.mem_adj]
    rcases hb.maxCD_used c with h0 | ⟨w, hw, hd⟩
    · exact Or.inl h0
    · by_cases h0 : k₁.maxCD c = 0
      · exact Or.inl h0
      · exact Or.inr ⟨w, hw, by omega⟩

end Dialysis.Refinement.Kernel
