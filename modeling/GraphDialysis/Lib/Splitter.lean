import GraphDialysis.Lib.Equitable
import Mathlib.Algebra.Order.BigOperators.Group.Finset
import Mathlib.Data.Fintype.Card
import Mathlib.Data.List.Nodup
import Mathlib.Order.Lattice.Nat

/-! Partition refinement with a queue of splitter classes. Popping a class `cur` gives every vertex
    the number `d` of its neighbours in `cur`, and every class falls apart by `d`: the fragment of
    least `d` keeps the class id, the others take fresh ids in ascending order of `d`. All fragments
    of a queued class are queued; of any other class all but one largest fragment are.

    The queue is justified by one invariant, `Settled`: equally coloured vertices that agree on the
    degrees into all queued classes agree on the degrees into all classes. Degrees into a split
    class are sums over its fragments, so the fragment that is left out can be recovered
    (`splitClass_agree`). When the queue is empty the invariant says that the colouring is
    equitable. -/

namespace Lib.Splitter
variable {V W : Type*} [Fintype V] [Fintype W]

/-- Class ids, classes still to be used as splitters, and the largest id in use. -/
structure State (V : Type*) where
  color : V → ℕ
  queue : List ℕ
  last : ℕ

/-- Number of vertices of class `c` with degree `i`. -/
def num (d color : V → ℕ) (c i : ℕ) : ℕ := (Finset.univ.filter fun v => color v = c ∧ d v = i).card

/-- The degrees that occur in class `c`, ascending. -/
def degrees (d color : V → ℕ) (c : ℕ) : List ℕ :=
  (List.range (Finset.univ.sup d + 1)).filter fun i => 0 < num d color c i

/-- The smallest of the values after `b` and of `b` itself at which `num` is largest. -/
def largest (num : ℕ → ℕ) (b : ℕ) (l : List ℕ) : ℕ :=
  l.foldl (fun b i => if num b < num i then i else b) b

/-- The id of the fragment of degree `i`: the least degree keeps the id, the others follow on
    `last` in their order. -/
def newId (c last least : ℕ) (fresh : List ℕ) (i : ℕ) : ℕ :=
  if i = least then c else last + 1 + fresh.idxOf i

/-- Split class `c` by the degrees `d`. -/
def splitClass (d : V → ℕ) (st : State V) (c : ℕ) : State V :=
  match degrees d st.color c with
  | [] => st
  | least :: fresh =>
    let big := largest (num d st.color c) least fresh
    { color := fun v => if st.color v = c then newId c st.last least fresh (d v) else st.color v
      queue := st.queue ++ (if c ∉ st.queue ∧ big ≠ least then [c] else []) ++
        (fresh.filter fun i => c ∈ st.queue ∨ i ≠ big).map (newId c st.last least fresh)
      last := st.last + fresh.length }

variable (nbr : V → List V)

/-- Pop a splitter and split every class by the degrees into it. -/
def step (st : State V) : State V :=
  match st.queue with
  | [] => st
  | cur :: q => (List.range (st.last + 1)).foldl (splitClass (degIn nbr st.color cur))
      { st with queue := q }

/-- Step until the queue is empty; `none` when the fuel does not last that long. -/
def loop : ℕ → State V → Option (State V)
  | 0, st => if st.queue = [] then some st else none
  | k + 1, st => if st.queue = [] then some st else loop k (step nbr st)

/-- Ids are exactly `0..last`. -/
structure Dense (st : State V) : Prop where
  le : ∀ v, st.color v ≤ st.last
  used : ∀ k ≤ st.last, ∃ v, st.color v = k

/-- Agreement on the queued classes carries over to all classes. -/
def Settled (st : State V) : Prop := ∀ u v, st.color u = st.color v →
  (∀ k ∈ st.queue, degIn nbr st.color k u = degIn nbr st.color k v) →
    ∀ k, degIn nbr st.color k u = degIn nbr st.color k v

/-! ### Splitting one class -/

theorem mem_degrees {d color : V → ℕ} {c i : ℕ} :
    i ∈ degrees d color c ↔ ∃ v, color v = c ∧ d v = i := by
  simp only [degrees, List.mem_filter, List.mem_range, decide_eq_true_eq, num, Finset.card_pos,
    Finset.Nonempty, Finset.mem_filter, Finset.mem_univ, true_and]
  refine ⟨fun h => h.2, fun ⟨v, hc, hd⟩ => ⟨?_, v, hc, hd⟩⟩
  have : d v ≤ Finset.univ.sup d := Finset.le_sup (Finset.mem_univ v)
  omega

theorem degrees_sorted (d color : V → ℕ) (c : ℕ) : (degrees d color c).Pairwise (· < ·) :=
  List.pairwise_lt_range.filter _

theorem degrees_eq_cons {d color : V → ℕ} {c least : ℕ} {fresh : List ℕ}
    (h : degrees d color c = least :: fresh) : least ∉ fresh ∧ fresh.Nodup := by
  have := h ▸ degrees_sorted d color c
  rw [List.pairwise_cons] at this
  exact ⟨fun hm => lt_irrefl _ (this.1 _ hm), this.2.imp fun h => ne_of_lt h⟩

theorem largest_mem (num : ℕ → ℕ) : ∀ (l : List ℕ) (b : ℕ), largest num b l ∈ b :: l
  | [], b => by simp [largest]
  | i :: l, b => by
    rw [largest, List.foldl_cons, ← largest, List.mem_cons, List.mem_cons]
    rcases List.mem_cons.mp (largest_mem num l (if num b < num i then i else b)) with h | h
    · by_cases hlt : num b < num i
      · rw [if_pos hlt] at h ⊢; exact Or.inr (Or.inl h)
      · rw [if_neg hlt] at h ⊢; exact Or.inl h
    · exact Or.inr (Or.inr h)

variable {nbr}

theorem newId_least (c last least : ℕ) (fresh : List ℕ) : newId c last least fresh least = c :=
  if_pos rfl

theorem newId_fresh (c last : ℕ) {least i : ℕ} {fresh : List ℕ} (hl : least ∉ fresh) (hi : i ∈ fresh) :
    last < newId c last least fresh i ∧ newId c last least fresh i ≤ last + fresh.length := by
  rw [newId, if_neg (by rintro rfl; exact hl hi)]
  have := List.idxOf_lt_length_of_mem hi
  omega

theorem newId_inj {c last least i j : ℕ} {fresh : List ℕ} (hc : c ≤ last) (hl : least ∉ fresh)
    (hi : i ∈ least :: fresh) (hj : j ∈ least :: fresh)
    (h : newId c last least fresh i = newId c last least fresh j) : i = j := by
  rw [List.mem_cons] at hi hj
  rcases hi with hi | hi <;> rcases hj with hj | hj
  · rw [hi, hj]
  · subst hi
    have := newId_fresh c last hl hj
    rw [newId_least] at h
    omega
  · subst hj
    have := newId_fresh c last hl hi
    rw [newId_least] at h
    omega
  · rw [newId, newId, if_neg (by rintro rfl; exact hl hi), if_neg (by rintro rfl; exact hl hj)] at h
    exact (List.idxOf_inj hi).mp (by omega)

/-- How the colouring, the queue and the ids relate before and after splitting class `c`. -/
theorem splitClass_cases (d : V → ℕ) (st : State V) (c : ℕ) :
    ((∀ v, st.color v ≠ c) ∧ splitClass d st c = st) ∨
    ∃ least fresh, degrees d st.color c = least :: fresh ∧
      splitClass d st c =
        { color := fun v => if st.color v = c then newId c st.last least fresh (d v) else st.color v
          queue := st.queue ++
            (if c ∉ st.queue ∧ largest (num d st.color c) least fresh ≠ least then [c] else []) ++
            (fresh.filter fun i => c ∈ st.queue ∨ i ≠ largest (num d st.color c) least fresh).map
              (newId c st.last least fresh)
          last := st.last + fresh.length } := by
  cases h : degrees d st.color c with
  | nil =>
    refine Or.inl ⟨fun v hv => ?_, by simp only [splitClass, h]⟩
    have := mem_degrees.mpr ⟨v, hv, (rfl : d v = d v)⟩
    rw [h] at this
    cases this
  | cons least fresh => exact Or.inr ⟨least, fresh, rfl, by simp only [splitClass, h]⟩

theorem newId_eq_or_lt (c last : ℕ) {least i : ℕ} {fresh : List ℕ} (hl : least ∉ fresh)
    (hi : i ∈ least :: fresh) :
    newId c last least fresh i = c ∨ last < newId c last least fresh i := by
  rcases List.mem_cons.mp hi with rfl | hi
  · exact Or.inl (newId_least ..)
  · exact Or.inr (newId_fresh c last hl hi).1

/-- Splitting separates the vertices of `c` by their degrees, and nothing else. -/
theorem splitClass_color {d : V → ℕ} {st : State V} {c : ℕ} (hle : ∀ v, st.color v ≤ st.last)
    (u v : V) : (splitClass d st c).color u = (splitClass d st c).color v ↔
      st.color u = st.color v ∧ (st.color u = c → d u = d v) := by
  rcases splitClass_cases d st c with ⟨hne, he⟩ | ⟨least, fresh, hD, he⟩
  · rw [he]
    exact ⟨fun h => ⟨h, fun hc => absurd hc (hne u)⟩, fun h => h.1⟩
  · rw [he]
    obtain ⟨hl, -⟩ := degrees_eq_cons hD
    have hmem : ∀ w, st.color w = c → d w ∈ least :: fresh := fun w hw =>
      hD ▸ mem_degrees.mpr ⟨w, hw, rfl⟩
    dsimp only
    by_cases hu : st.color u = c <;> by_cases hv : st.color v = c
    · have hc : c ≤ st.last := hu ▸ hle u
      rw [if_pos hu, if_pos hv, hu, hv]
      exact ⟨fun h => ⟨rfl, fun _ => newId_inj hc hl (hmem u hu) (hmem v hv) h⟩,
        fun h => by rw [h.2 rfl]⟩
    · rw [if_pos hu, if_neg hv]
      have hv' := hle v
      constructor
      · intro h
        rcases newId_eq_or_lt c st.last hl (hmem u hu) with h' | h' <;> omega
      · rintro ⟨h, -⟩; exact absurd (h.symm.trans hu) hv
    · rw [if_neg hu, if_pos hv]
      have hu' := hle u
      constructor
      · intro h
        rcases newId_eq_or_lt c st.last hl (hmem v hv) with h' | h' <;> omega
      · rintro ⟨h, -⟩; exact absurd (h.trans hv) hu
    · rw [if_neg hu, if_neg hv]
      exact ⟨fun h => ⟨h, fun h' => absurd h' hu⟩, fun h => h.1⟩

theorem splitClass_refines {d : V → ℕ} {st : State V} {c : ℕ} (hle : ∀ v, st.color v ≤ st.last) :
    Refines (splitClass d st c).color st.color := fun u v h => ((splitClass_color hle u v).mp h).1

theorem splitClass_dense {d : V → ℕ} {st : State V} {c : ℕ} (h : Dense st) :
    Dense (splitClass d st c) := by
  rcases splitClass_cases d st c with ⟨-, he⟩ | ⟨least, fresh, hD, he⟩
  · rwa [he]
  · rw [he]
    obtain ⟨hl, hnd⟩ := degrees_eq_cons hD
    refine ⟨fun v => ?_, fun k hk => ?_⟩
    · dsimp only
      by_cases hv : st.color v = c
      · rw [if_pos hv]
        rcases List.mem_cons.mp (hD ▸ mem_degrees.mpr ⟨v, hv, rfl⟩ : d v ∈ least :: fresh) with hd | hd
        · rw [hd, newId_least, ← hv]
          exact (h.le v).trans (Nat.le_add_right ..)
        · exact (newId_fresh c st.last hl hd).2
      · rw [if_neg hv]; exact (h.le v).trans (Nat.le_add_right ..)
    · dsimp only at hk ⊢
      by_cases hlast : k ≤ st.last
      · obtain ⟨v, hv⟩ := h.used k hlast
        by_cases hkc : k = c
        · obtain ⟨w, hw, hd⟩ := mem_degrees.mp (hD ▸ List.mem_cons_self : least ∈ degrees d st.color c)
          exact ⟨w, by rw [if_pos hw, hd, newId_least, hkc]⟩
        · exact ⟨v, by rw [if_neg (hv ▸ hkc), hv]⟩
      · have hlt : k - (st.last + 1) < fresh.length := by omega
        have hmem := List.getElem_mem hlt
        obtain ⟨w, hw, hd⟩ := mem_degrees.mp (hD ▸ List.mem_cons_of_mem _ hmem)
        refine ⟨w, ?_⟩
        rw [if_pos hw, hd, newId, if_neg (by rintro he; exact hl (he ▸ hmem)), hnd.idxOf_getElem]
        omega

/-- Every new class id puts exactly one class into the queue. -/
theorem splitClass_length (d : V → ℕ) (st : State V) (c : ℕ) :
    (splitClass d st c).queue.length + st.last = st.queue.length + (splitClass d st c).last := by
  rcases splitClass_cases d st c with ⟨-, he⟩ | ⟨least, fresh, hD, he⟩
  · rw [he]
  · rw [he]
    obtain ⟨hl, hnd⟩ := degrees_eq_cons hD
    dsimp only
    rw [List.length_append, List.length_append, List.length_map]
    by_cases hc : c ∈ st.queue
    · rw [if_neg (by simp [hc]), List.filter_eq_self.mpr (by simp [hc])]
      simp only [List.length_nil]; omega
    · have hbig := largest_mem (num d st.color c) fresh least
      generalize largest (num d st.color c) least fresh = big at hbig
      simp only [hc, not_false_eq_true, true_and, false_or]
      rcases List.mem_cons.mp hbig with rfl | hbig
      · rw [if_neg (by simp), List.filter_eq_self.mpr
          (fun i hi => by simpa using fun h : i = big => hl (h ▸ hi))]
        simp only [List.length_nil]; omega
      · have hlen : (fresh.filter fun i => i ≠ big).length = fresh.length - 1 := by
          rw [← List.length_erase_of_mem hbig, hnd.erase_eq_filter]
          exact congrArg _ (List.filter_congr fun i _ => by by_cases h : i = big <;> simp [h])
        have hpos := List.length_pos_of_mem hbig
        have hne : big ≠ least := fun h => hl (h ▸ hbig)
        rw [if_pos hne, hlen, List.length_singleton]
        omega

theorem splitClass_queue {d : V → ℕ} {st : State V} {c k : ℕ} (hk : k ∈ st.queue) :
    k ∈ (splitClass d st c).queue := by
  rcases splitClass_cases d st c with ⟨-, he⟩ | ⟨least, fresh, hD, he⟩ <;> rw [he]
  · exact hk
  · exact List.mem_append_left _ (List.mem_append_left _ hk)

/-- The queue holds class ids, none twice. -/
structure Tidy (st : State V) : Prop where
  nodup : st.queue.Nodup
  le : ∀ k ∈ st.queue, k ≤ st.last

theorem splitClass_tidy {d : V → ℕ} {st : State V} {c : ℕ} (h : Tidy st) (hc : c ≤ st.last) :
    Tidy (splitClass d st c) := by
  rcases splitClass_cases d st c with ⟨-, he⟩ | ⟨least, fresh, hD, he⟩
  · rwa [he]
  · rw [he]
    obtain ⟨hl, hnd⟩ := degrees_eq_cons hD
    have hnew : ∀ k ∈ (fresh.filter fun i => c ∈ st.queue ∨ i ≠ largest (num d st.color c) least fresh).map
        (newId c st.last least fresh), st.last < k ∧ k ≤ st.last + fresh.length := by
      intro k hk
      obtain ⟨i, hi, rfl⟩ := List.mem_map.mp hk
      exact newId_fresh c st.last hl (List.mem_filter.mp hi).1
    refine ⟨List.nodup_append.mpr ⟨List.nodup_append.mpr ⟨h.nodup, ?_, ?_⟩, ?_, ?_⟩, fun k hk => ?_⟩
    · split <;> simp
    · intro a ha b hb
      split at hb
      · rename_i hif
        rw [List.mem_singleton] at hb
        rintro rfl
        exact hif.1 (hb ▸ ha)
      · cases hb
    · refine List.Nodup.map_on (fun i hi j hj he => ?_) (hnd.filter _)
      exact newId_inj hc hl (List.mem_cons_of_mem _ (List.mem_filter.mp hi).1)
        (List.mem_cons_of_mem _ (List.mem_filter.mp hj).1) he
    · intro a ha b hb
      have hb' := (hnew b hb).1
      have ha' : a ≤ st.last := by
        rcases List.mem_append.mp ha with ha | ha
        · exact h.le a ha
        · split at ha
          · rw [List.mem_singleton] at ha; omega
          · cases ha
      omega
    · dsimp only at hk ⊢
      rcases List.mem_append.mp hk with hk | hk
      · rcases List.mem_append.mp hk with hk | hk
        · exact (h.le k hk).trans (Nat.le_add_right ..)
        · split at hk
          · rw [List.mem_singleton] at hk; omega
          · cases hk
      · exact (hnew k hk).2

/-- At most one class id of the fragments stays out of the queue, and none when `c` was queued. -/
theorem exists_left_out (d : V → ℕ) (st : State V) (c : ℕ) : ∃ big, ∀ w, st.color w = c →
    c ∈ st.queue ∨ (splitClass d st c).color w ≠ big →
      (splitClass d st c).color w ∈ (splitClass d st c).queue := by
  rcases splitClass_cases d st c with ⟨hne, -⟩ | ⟨least, fresh, hD, he⟩
  · exact ⟨0, fun w hw => absurd hw (hne w)⟩
  · refine ⟨newId c st.last least fresh (largest (num d st.color c) least fresh), fun w hw hor => ?_⟩
    rw [he] at hor ⊢
    dsimp only at hor ⊢
    rw [if_pos hw] at hor ⊢
    have hor' : c ∈ st.queue ∨ d w ≠ largest (num d st.color c) least fresh :=
      hor.imp_right fun h he => h (by rw [he])
    rw [List.mem_append, List.mem_append]
    rcases List.mem_cons.mp (hD ▸ mem_degrees.mpr ⟨w, hw, rfl⟩ : d w ∈ least :: fresh) with hd | hd
    · rw [hd, newId_least]
      by_cases hc : c ∈ st.queue
      · exact Or.inl (Or.inl hc)
      · rw [hd] at hor'
        refine Or.inl (Or.inr ?_)
        rw [if_pos ⟨hc, fun he => hor'.elim hc fun h => h he.symm⟩]
        exact List.mem_singleton.mpr rfl
    · exact Or.inr (List.mem_map.mpr ⟨d w, List.mem_filter.mpr ⟨hd, by simpa using hor'⟩, rfl⟩)

theorem splitClass_last (d : V → ℕ) (st : State V) (c : ℕ) :
    st.last ≤ (splitClass d st c).last := by
  rcases splitClass_cases d st c with ⟨-, he⟩ | ⟨least, fresh, hD, he⟩ <;> rw [he]
  exact Nat.le_add_right ..

/-- A class other than `c` is the same set of vertices before and after. -/
theorem splitClass_other {d : V → ℕ} {st : State V} {c k : ℕ} (hk : k ≤ st.last) (hkc : k ≠ c)
    (w : V) : (splitClass d st c).color w = k ↔ st.color w = k := by
  rcases splitClass_cases d st c with ⟨-, he⟩ | ⟨least, fresh, hD, he⟩ <;> rw [he]
  dsimp only
  by_cases hw : st.color w = c
  · rw [if_pos hw]
    rcases newId_eq_or_lt c st.last (degrees_eq_cons hD).1
      (hD ▸ mem_degrees.mpr ⟨w, hw, rfl⟩ : d w ∈ least :: fresh) with h | h <;> omega
  · rw [if_neg hw]

theorem splitClass_id {d : V → ℕ} {st : State V} {c k : ℕ}
    (hno : ∀ w, st.color w = c → (splitClass d st c).color w ≠ k)
    (w : V) : (splitClass d st c).color w = k ↔ st.color w = k := by
  rcases splitClass_cases d st c with ⟨-, he⟩ | ⟨least, fresh, hD, he⟩
  · rw [he]
  · have hkc : k ≠ c := by
      rintro rfl
      obtain ⟨x, hx, hd⟩ := mem_degrees.mp (hD ▸ List.mem_cons_self : least ∈ degrees d st.color k)
      refine hno x hx ?_
      rw [he]; dsimp only
      rw [if_pos hx, hd, newId_least]
    by_cases hw : st.color w = c
    · exact ⟨fun h' => absurd h' (hno w hw), fun h' => absurd (h'.symm.trans hw) hkc⟩
    · rw [he]; dsimp only
      rw [if_neg hw]

/-! ### The queue invariant

`Agree` compares the degrees of two vertices into one class; what is known about the queued
classes after a split is carried back to the queue before it, and the agreement on all classes
before it is carried forward. -/

variable (nbr) in
/-- Equally many neighbours in class `k`. -/
def Agree (color : V → ℕ) (u v : V) (k : ℕ) : Prop := degIn nbr color k u = degIn nbr color k v

omit [Fintype V] in
theorem agree_congr {color color' : V → ℕ} {k : ℕ} (h : ∀ w, color' w = k ↔ color w = k) (u v : V) :
    Agree nbr color' u v k ↔ Agree nbr color u v k := by
  have : ∀ x, degIn nbr color' k x = degIn nbr color k x := fun x =>
    List.countP_congr fun w _ => by simp [h w]
  rw [Agree, Agree, this, this]

theorem splitClass_agree_back {d : V → ℕ} {st : State V} {c : ℕ} (h : Dense st) {u v : V}
    (hagree : ∀ k ∈ (splitClass d st c).queue, Agree nbr (splitClass d st c).color u v k) :
    ∀ k ∈ st.queue, Agree nbr st.color u v k := by
  intro k hk
  by_cases hlast : k ≤ st.last
  · by_cases hkc : k = c
    · subst hkc
      obtain ⟨big, hbig⟩ := exists_left_out d st k
      rw [Agree, degIn_eq_sum (splitClass_refines (d := d) (c := k) h.le),
        degIn_eq_sum (splitClass_refines (d := d) (c := k) h.le)]
      refine Finset.sum_congr rfl fun i hi => ?_
      obtain ⟨w, hw, rfl⟩ := Finset.mem_image.mp hi
      exact hagree _ (hbig w (Finset.mem_filter.mp hw).2 (Or.inl hk))
    · exact (agree_congr (splitClass_other hlast hkc) u v).mp (hagree k (splitClass_queue hk))
  · have hnone : ∀ x, degIn nbr st.color k x = 0 := fun x =>
      List.countP_eq_zero.mpr fun w _ => by
        have := h.le w
        simp only [decide_eq_true_eq]; omega
    rw [Agree, hnone, hnone]

theorem splitClass_agree {d : V → ℕ} {st : State V} {c : ℕ} (h : Dense st) {u v : V}
    (hagree : ∀ k ∈ (splitClass d st c).queue, Agree nbr (splitClass d st c).color u v k)
    (hall : ∀ k, Agree nbr st.color u v k) :
    ∀ k, Agree nbr (splitClass d st c).color u v k := by
  intro k
  by_cases hno : ∀ w, st.color w = c → (splitClass d st c).color w ≠ k
  · exact (agree_congr (splitClass_id hno) u v).mpr (hall k)
  · push Not at hno
    obtain ⟨w, hw, rfl⟩ := hno
    obtain ⟨big, hbig⟩ := exists_left_out d st c
    by_cases hin : c ∈ st.queue ∨ (splitClass d st c).color w ≠ big
    · exact hagree _ (hbig w hw hin)
    · -- the fragment that is left out has what all others leave of the whole class
      push Not at hin
      obtain ⟨-, rfl⟩ := hin
      have hmem : (splitClass d st c).color w ∈
          (Finset.univ.filter fun v => st.color v = c).image (splitClass d st c).color :=
        Finset.mem_image_of_mem _ (Finset.mem_filter.mpr ⟨Finset.mem_univ w, hw⟩)
      have hsum := hall c
      rw [Agree, degIn_eq_sum (splitClass_refines (d := d) (c := c) h.le),
        degIn_eq_sum (splitClass_refines (d := d) (c := c) h.le),
        ← Finset.add_sum_erase _ _ hmem, ← Finset.add_sum_erase _ _ hmem] at hsum
      refine Nat.add_right_cancel (hsum.trans (congrArg _ (Finset.sum_congr rfl fun i hi => ?_)))
      obtain ⟨hne, hi⟩ := Finset.mem_erase.mp hi
      obtain ⟨x, hx, rfl⟩ := Finset.mem_image.mp hi
      exact (hagree _ (hbig x (Finset.mem_filter.mp hx).2 (Or.inr hne))).symm

/-! ### A round -/

variable (nbr) in
/-- What splitting a list of classes by `d` does. -/
structure Split (d : V → ℕ) (cs : List ℕ) (st st' : State V) : Prop where
  dense : Dense st'
  tidy : Tidy st → Tidy st'
  color : ∀ u v, st'.color u = st'.color v ↔
    st.color u = st.color v ∧ (st.color u ∈ cs → d u = d v)
  length : st'.queue.length + st.last = st.queue.length + st'.last
  back : ∀ u v, (∀ k ∈ st'.queue, Agree nbr st'.color u v k) →
    ∀ k ∈ st.queue, Agree nbr st.color u v k
  forth : ∀ u v, (∀ k ∈ st'.queue, Agree nbr st'.color u v k) →
    (∀ k, Agree nbr st.color u v k) → ∀ k, Agree nbr st'.color u v k

variable (nbr) in
theorem foldl_splitClass {d : V → ℕ} : ∀ {cs : List ℕ} {st : State V}, cs.Nodup →
    (∀ c ∈ cs, c ≤ st.last) → Dense st → Split nbr d cs st (cs.foldl (splitClass d) st)
  | [], st, _, _, h => ⟨h, id, fun u v => by simp, rfl, fun _ _ h => h, fun _ _ _ h => h⟩
  | c :: cs, st, hnd, hle, h => by
    rw [List.nodup_cons] at hnd
    have hlen := splitClass_length d st c
    have hlast := splitClass_last d st c
    have ih := foldl_splitClass (d := d) hnd.2
      (fun k hk => (hle k (List.mem_cons_of_mem _ hk)).trans hlast) (splitClass_dense (d := d) (c := c) h)
    rw [List.foldl_cons]
    refine ⟨ih.dense, fun ht => ih.tidy (splitClass_tidy ht (hle c List.mem_cons_self)),
      fun u v => ?_, ?_, ?_, ?_⟩
    · have hmem : (splitClass d st c).color u ∈ cs ↔ st.color u ∈ cs := by
        constructor
        · intro hk
          have hne : (splitClass d st c).color u ≠ c := fun he => hnd.1 (he ▸ hk)
          have := (splitClass_other (hle _ (List.mem_cons_of_mem _ hk)) hne u).mp rfl
          rwa [this]
        · intro hk
          have hne : st.color u ≠ c := fun he => hnd.1 (he ▸ hk)
          have := (splitClass_other (d := d) (hle _ (List.mem_cons_of_mem _ hk)) hne u).mpr rfl
          rwa [this]
      rw [ih.color, hmem, splitClass_color h.le, List.mem_cons, and_assoc]
      exact and_congr_right fun _ => ⟨fun hh ho => ho.elim hh.1 hh.2, fun hh =>
        ⟨fun ho => hh (Or.inl ho), fun ho => hh (Or.inr ho)⟩⟩
    · have := ih.length; omega
    · exact fun u v ha => splitClass_agree_back h (ih.back u v ha)
    · exact fun u v ha hall => ih.forth u v ha (splitClass_agree h (ih.back u v ha) hall)

/-- A class whose degrees do not vary stays as it is. -/
theorem splitClass_trivial {d : V → ℕ} {st : State V} {c : ℕ}
    (h : ∀ u v, st.color u = c → st.color v = c → d u = d v) : splitClass d st c = st := by
  rcases splitClass_cases d st c with ⟨-, he⟩ | ⟨least, fresh, hD, he⟩
  · exact he
  · obtain ⟨w, hw, hd⟩ := mem_degrees.mp (hD ▸ List.mem_cons_self : least ∈ degrees d st.color c)
    have hnil : fresh = [] := by
      refine List.eq_nil_iff_forall_not_mem.mpr fun i hi => (degrees_eq_cons hD).1 ?_
      obtain ⟨v, hv, rfl⟩ := mem_degrees.mp (hD ▸ List.mem_cons_of_mem _ hi)
      rwa [← hd, h w v hw hv]
    subst hnil
    rw [he]
    have hcolor : (fun v => if st.color v = c then newId c st.last least [] (d v) else st.color v) =
        st.color := by
      funext v
      by_cases hv : st.color v = c
      · rw [if_pos hv, h v w hv hw, hd, newId_least, hv]
      · rw [if_neg hv]
    simp [hcolor, largest]

/-- It is enough to split the classes whose degrees vary. -/
theorem foldl_splitClass_filter {d : V → ℕ} (p : ℕ → Bool) : ∀ {cs : List ℕ} {st : State V},
    cs.Nodup → (∀ c ∈ cs, c ≤ st.last) →
    (∀ c ∈ cs, p c = false → ∀ u v, st.color u = c → st.color v = c → d u = d v) →
      cs.foldl (splitClass d) st = (cs.filter p).foldl (splitClass d) st
  | [], _, _, _, _ => rfl
  | c :: cs, st, hnd, hle, htriv => by
    rw [List.nodup_cons] at hnd
    rw [List.foldl_cons]
    cases hp : p c with
    | false =>
      rw [splitClass_trivial (htriv c List.mem_cons_self hp), List.filter_cons_of_neg (by simp [hp])]
      exact foldl_splitClass_filter p hnd.2 (fun k hk => hle k (List.mem_cons_of_mem _ hk))
        fun k hk => htriv k (List.mem_cons_of_mem _ hk)
    | true =>
      rw [List.filter_cons_of_pos (by simp [hp]), List.foldl_cons]
      have hlast := splitClass_last d st c
      refine foldl_splitClass_filter p hnd.2
        (fun k hk => (hle k (List.mem_cons_of_mem _ hk)).trans hlast) fun k hk hpk u v hu hv => ?_
      have hne : k ≠ c := fun he => hnd.1 (he ▸ hk)
      have hkle := hle k (List.mem_cons_of_mem _ hk)
      exact htriv k (List.mem_cons_of_mem _ hk) hpk u v ((splitClass_other hkle hne u).mp hu)
        ((splitClass_other hkle hne v).mp hv)

variable (nbr) in
/-- A round separates equally coloured vertices by their degrees into the popped class. -/
theorem step_split {st : State V} {cur : ℕ} {q : List ℕ} (hq : st.queue = cur :: q) (h : Dense st) :
    Split nbr (degIn nbr st.color cur) (List.range (st.last + 1)) { st with queue := q }
      (step nbr st) := by
  rw [step, hq]
  exact foldl_splitClass nbr List.nodup_range
    (fun c hc => Nat.lt_succ_iff.mp (List.mem_range.mp hc)) ⟨h.le, h.used⟩

theorem step_color {st : State V} {cur : ℕ} {q : List ℕ} (hq : st.queue = cur :: q) (h : Dense st)
    (u v : V) : (step nbr st).color u = (step nbr st).color v ↔
      st.color u = st.color v ∧ Agree nbr st.color u v cur := by
  rw [(step_split nbr hq h).color]
  have := h.le u
  refine and_congr_right fun _ => ⟨fun hh => hh (List.mem_range.mpr ?_), fun hh _ => hh⟩
  dsimp only; omega

theorem step_settled {st : State V} {cur : ℕ} {q : List ℕ} (hq : st.queue = cur :: q) (h : Dense st)
    (hs : Settled nbr st) : Settled nbr (step nbr st) := by
  intro u v huv hagree
  have hsplit := step_split nbr hq h
  obtain ⟨hold, hcur⟩ := (step_color hq h u v).mp huv
  refine hsplit.forth u v hagree (hs u v hold fun k hk => ?_)
  rcases List.mem_cons.mp (hq ▸ hk) with rfl | hk
  · exact hcur
  · exact hsplit.back u v hagree k hk

/-! ### The whole run -/

theorem step_tidy {st : State V} {cur : ℕ} {q : List ℕ} (hq : st.queue = cur :: q) (hd : Dense st)
    (h : Tidy st) : Tidy (step nbr st) := by
  refine (step_split nbr hq hd).tidy ⟨?_, fun k hk => h.le k (hq ▸ List.mem_cons_of_mem _ hk)⟩
  have := h.nodup
  rw [hq] at this
  exact this.of_cons

variable (nbr) in
/-- What holds whenever a class is popped. -/
structure Inv (init : V → ℕ) (st : State V) : Prop where
  dense : Dense st
  settled : Settled nbr st
  refines : Refines st.color init
  coarsest : ∀ {ι : Type} [DecidableEq ι] (π : V → ι), Refines π init → Equitable nbr π →
    Refines π st.color

theorem step_inv {init : V → ℕ} {st : State V} {cur : ℕ} {q : List ℕ} (hq : st.queue = cur :: q)
    (h : Inv nbr init st) : Inv nbr init (step nbr st) where
  dense := (step_split nbr hq h.dense).dense
  settled := step_settled hq h.dense h.settled
  refines := fun u v huv => h.refines u v ((step_color hq h.dense u v).mp huv).1
  coarsest := fun π hinit heq u v huv => (step_color hq h.dense u v).mpr
    ⟨h.coarsest π hinit heq u v huv, heq.degIn_coarse (h.coarsest π hinit heq) huv cur⟩

theorem Dense.last_lt [Nonempty V] {st : State V} (h : Dense st) :
    st.last + 1 ≤ Fintype.card V := by
  classical
  have hsub : Finset.range (st.last + 1) ⊆ Finset.univ.image st.color := by
    intro k hk
    obtain ⟨v, hv⟩ := h.used k (Nat.lt_succ_iff.mp (Finset.mem_range.mp hk))
    exact Finset.mem_image.mpr ⟨v, Finset.mem_univ v, hv⟩
  have := (Finset.card_le_card hsub).trans Finset.card_image_le
  rwa [Finset.card_range] at this

/-- The run ends within as many rounds as there are classes to be found and classes queued, and
    the invariant holds at its end. -/
theorem loop_inv [Nonempty V] {init : V → ℕ} : ∀ (k : ℕ) (st : State V), Inv nbr init st →
    st.queue.length + Fintype.card V ≤ k + (st.last + 1) →
      ∃ st', loop nbr k st = some st' ∧ st'.queue = [] ∧ Inv nbr init st'
  | 0, st, h, hk => by
    have := h.dense.last_lt
    have hq : st.queue = [] := List.eq_nil_of_length_eq_zero (by omega)
    exact ⟨st, by rw [loop, if_pos hq], hq, h⟩
  | k + 1, st, h, hk => by
    rw [loop]
    by_cases hq : st.queue = []
    · exact ⟨st, if_pos hq, hq, h⟩
    · rw [if_neg hq]
      obtain ⟨cur, q, hcq⟩ := List.exists_cons_of_ne_nil hq
      have hlen := (step_split nbr hcq h.dense).length
      rw [hcq, List.length_cons] at hk
      dsimp only at hlen
      exact loop_inv k _ (step_inv hcq h) (by omega)

/-- More fuel does not change the result. -/
theorem loop_mono : ∀ {k k' : ℕ} {st st' : State V}, k ≤ k' → loop nbr k st = some st' →
    loop nbr k' st = some st'
  | 0, 0, _, _, _, h => h
  | 0, k' + 1, st, st', _, h => by
    rw [loop] at h
    split at h
    · rename_i hq
      rw [loop, if_pos hq]; exact h
    · cases h
  | k + 1, k' + 1, st, st', hk, h => by
    rw [loop] at h ⊢
    by_cases hq : st.queue = []
    · rw [if_pos hq] at h ⊢; exact h
    · rw [if_neg hq] at h ⊢; exact loop_mono (by omega) h

/-- The state in which all classes of a dense colouring are queued. -/
def start (color : V → ℕ) (k : ℕ) : State V := ⟨color, List.range k, k - 1⟩

variable (nbr) in
omit [Fintype V] in
theorem start_inv [Nonempty V] {init : V → ℕ} {k : ℕ} (hle : ∀ v, init v < k)
    (hused : ∀ i < k, ∃ v, init v = i) : Inv nbr init (start init k) where
  dense := by
    obtain ⟨v⟩ := ‹Nonempty V›
    have hpos := hle v
    exact ⟨fun v => by have := hle v; dsimp only [start]; omega,
      fun i hi => hused i (by dsimp only [start] at hi; omega)⟩
  settled := by
    intro u v _ hagree i
    by_cases hi : i < k
    · exact hagree i (List.mem_range.mpr hi)
    · have hnone : ∀ x, degIn nbr (start init k).color i x = 0 := fun x =>
        List.countP_eq_zero.mpr fun w _ => by
          have hw := hle w
          change ¬decide (init w = i) = true
          rw [decide_eq_true_eq]; omega
      rw [hnone, hnone]
  refines := Refines.refl init
  coarsest := fun _ h _ => h

omit [Fintype V] in
/-- An empty queue leaves nothing to check. -/
theorem Inv.isCoarsest {init : V → ℕ} {st : State V} (h : Inv nbr init st)
    (hq : st.queue = []) : IsCoarsest nbr init st.color where
  refines := h.refines
  equitable := fun u v huv k => h.settled u v huv (by simp [hq]) k
  coarsest := h.coarsest

variable (nbr) in
/-- From a colouring whose ids are `0..k-1` the run ends in its coarsest equitable refinement,
    whose ids again have no gaps. -/
theorem loop_start [Nonempty V] {init : V → ℕ} {k : ℕ} (hle : ∀ v, init v < k)
    (hused : ∀ i < k, ∃ v, init v = i) {fuel : ℕ} (hfuel : Fintype.card V ≤ fuel) :
    ∃ st, loop nbr fuel (start init k) = some st ∧ Dense st ∧ IsCoarsest nbr init st.color := by
  obtain ⟨v⟩ := ‹Nonempty V›
  have hpos := hle v
  obtain ⟨st, hst, hq, hinv⟩ := loop_inv fuel (start init k) (start_inv nbr hle hused)
    (by dsimp only [start]; rw [List.length_range]; omega)
  exact ⟨st, hst, hinv.dense, hinv.isCoarsest hq⟩

/-! ### Isomorphic inputs

Nothing in a round looks at a vertex except through its class and its degree, so isomorphic inputs
are numbered alike. -/

/-- `st'` is `st` carried along `e`. -/
structure Carried (e : V ≃ W) (st : State V) (st' : State W) : Prop where
  color : ∀ v, st'.color (e v) = st.color v
  queue : st'.queue = st.queue
  last : st'.last = st.last

theorem num_carried {e : V ≃ W} {d color : V → ℕ} {d' color' : W → ℕ} (hd : ∀ v, d' (e v) = d v)
    (hc : ∀ v, color' (e v) = color v) (c i : ℕ) : num d' color' c i = num d color c i := by
  refine (Finset.card_equiv e fun v => ?_).symm
  simp only [Finset.mem_filter, Finset.mem_univ, true_and, hd, hc]

theorem degrees_carried {e : V ≃ W} {d color : V → ℕ} {d' color' : W → ℕ} (hd : ∀ v, d' (e v) = d v)
    (hc : ∀ v, color' (e v) = color v) (c : ℕ) : degrees d' color' c = degrees d color c := by
  have hsup : Finset.univ.sup d' = Finset.univ.sup d := by
    refine le_antisymm (Finset.sup_le fun w _ => ?_) (Finset.sup_le fun v _ => ?_)
    · obtain ⟨v, rfl⟩ := e.surjective w
      rw [hd]; exact Finset.le_sup (Finset.mem_univ v)
    · rw [← hd]; exact Finset.le_sup (Finset.mem_univ (e v))
  simp only [degrees, hsup, num_carried hd hc]

theorem splitClass_carried {e : V ≃ W} {d : V → ℕ} {d' : W → ℕ} (hd : ∀ v, d' (e v) = d v)
    {st : State V} {st' : State W} (h : Carried e st st') (c : ℕ) :
    Carried e (splitClass d st c) (splitClass d' st' c) := by
  have hnum : num d' st'.color c = num d st.color c := funext fun i => num_carried hd h.color c i
  rw [splitClass, splitClass, degrees_carried hd h.color c, hnum]
  cases degrees d st.color c with
  | nil => exact h
  | cons least fresh =>
    exact ⟨fun v => by simp only [h.color, h.last, hd], by simp only [h.queue, h.last],
      by simp only [h.last]⟩

theorem step_carried {nbr' : W → List W} {e : V ≃ W}
    (hadj : ∀ v, ((nbr v).map e).Perm (nbr' (e v))) {st : State V} {st' : State W}
    (h : Carried e st st') : Carried e (step nbr st) (step nbr' st') := by
  have hfold : ∀ (d : V → ℕ) (d' : W → ℕ), (∀ v, d' (e v) = d v) → ∀ (cs : List ℕ) (st : State V)
      (st' : State W), Carried e st st' →
      Carried e (cs.foldl (splitClass d) st) (cs.foldl (splitClass d') st') := by
    intro d d' hd cs
    induction cs with
    | nil => exact fun _ _ h => h
    | cons c cs ih => exact fun _ _ h => ih _ _ (splitClass_carried hd h c)
  rw [step, step, h.queue]
  cases st.queue with
  | nil => exact h
  | cons cur q =>
    simp only [h.last]
    exact hfold _ _ (fun v => degIn_map hadj h.color cur v) _ _ _ ⟨h.color, rfl, rfl⟩

theorem loop_carried {nbr' : W → List W} {e : V ≃ W}
    (hadj : ∀ v, ((nbr v).map e).Perm (nbr' (e v))) : ∀ (k : ℕ) {st t : State V} {st' t' : State W},
    Carried e st st' → loop nbr k st = some t → loop nbr' k st' = some t' → Carried e t t'
  | 0, st, t, st', t', h, ht, ht' => by
    rw [loop] at ht ht'
    rw [h.queue] at ht'
    by_cases hq : st.queue = []
    · rw [if_pos hq] at ht ht'; cases ht; cases ht'; exact h
    · rw [if_neg hq] at ht; cases ht
  | k + 1, st, t, st', t', h, ht, ht' => by
    rw [loop] at ht ht'
    rw [h.queue] at ht'
    by_cases hq : st.queue = []
    · rw [if_pos hq] at ht ht'; cases ht; cases ht'; exact h
    · rw [if_neg hq] at ht ht'
      exact loop_carried hadj k (step_carried hadj h) ht ht'

end Lib.Splitter
