import Mathlib.Data.Fintype.EquivFin
import Mathlib.Data.Fintype.Sets
import Mathlib.Data.List.Perm.Basic
import Mathlib.Logic.Equiv.Option
import Mathlib.Logic.Relation

/-! Coloured rooted forests and the isomorphism of their subtrees.

    `isomorphic_iff` takes an isomorphism apart: the roots have one colour, and the subtrees of the
    children are isomorphic in pairs. From it `eq_iff_isomorphic`: labels that are equal just when
    the colours are and the labels of the children, in any order, are equal exactly on isomorphic
    subtrees. It serves any labelling built from the leaves up, by numbers or by strings. -/

namespace Lib
variable {V W K L : Type*}

/-- Everybody has a colour and children, and at most one parent; nobody is below itself. -/
structure Forest (V K : Type*) where
  children : V → List V
  color : V → K
  nodup : ∀ v, (children v).Nodup
  unique : ∀ {v v' w}, w ∈ children v → w ∈ children v' → v = v'
  wf : WellFounded fun w v => w ∈ children v

namespace Forest
variable (F : Forest V K) (G : Forest W K)

/-- `w` is in the subtree of `v`. -/
def Below : V → V → Prop := Relation.ReflTransGen fun v w => w ∈ F.children v

variable {F} in
theorem Below.refl (v : V) : F.Below v v := Relation.ReflTransGen.refl

variable {F} in
theorem Below.trans {u v w : V} (h : F.Below u v) (h' : F.Below v w) : F.Below u w :=
  Relation.ReflTransGen.trans h h'

variable {F} in
theorem Below.child {v w : V} (h : w ∈ F.children v) : F.Below v w := Relation.ReflTransGen.single h

/-- A bijection of two subtrees that carries root to root, children to children and keeps the
    colours. -/
structure SubtreeIso (u : V) (v : W) where
  e : {x // F.Below u x} ≃ {y // G.Below v y}
  root : (e ⟨u, .refl u⟩).1 = v
  child : ∀ x y : {x // F.Below u x}, y.1 ∈ F.children x.1 ↔ (e y).1 ∈ G.children (e x).1
  color : ∀ x, G.color (e x).1 = F.color x.1

/-- The coloured subtrees are isomorphic. -/
def Isomorphic (u : V) (v : W) : Prop := Nonempty (SubtreeIso F G u v)

variable {F G} {u x y z : V} {v : W}

theorem Below.eq_or_child (h : F.Below u x) : x = u ∨ ∃ c ∈ F.children u, F.Below c x := by
  rcases Relation.ReflTransGen.cases_head h with rfl | ⟨c, hc, hcx⟩
  · exact Or.inl rfl
  · exact Or.inr ⟨c, hc, hcx⟩

/-- Nobody is below one of its own children. -/
theorem not_below_child (hx : x ∈ F.children u) : ¬F.Below x u := by
  intro h
  have hcycle : Relation.TransGen (fun w v => w ∈ F.children v) u u :=
    Relation.transGen_swap.mp (Relation.TransGen.head' hx h)
  exact F.wf.transGen.asymmetric _ _ hcycle hcycle

/-- Above one vertex there is one line of ancestors. -/
theorem Below.total (hx : F.Below x z) : ∀ {y}, F.Below y z → F.Below x y ∨ F.Below y x := by
  induction hx with
  | refl => exact fun h => Or.inr h
  | tail hx hz ih =>
    intro y hy
    rcases Relation.ReflTransGen.cases_tail hy with rfl | ⟨b, hb, hzb⟩
    · exact Or.inl (hx.tail hz)
    · exact ih (F.unique hz hzb ▸ hb)

/-- The subtrees of different children are disjoint. -/
theorem child_unique (hx : x ∈ F.children u) (hy : y ∈ F.children u) (hxz : F.Below x z)
    (hyz : F.Below y z) : x = y := by
  have hdown : ∀ {x y}, x ∈ F.children u → y ∈ F.children u → F.Below x y → x = y := by
    intro x y hx hy hxy
    rcases Relation.ReflTransGen.cases_tail hxy with rfl | ⟨b, hb, hby⟩
    · rfl
    · exact absurd (F.unique hby hy ▸ hb) (not_below_child hx)
  rcases hxz.total hyz with h | h
  · exact hdown hx hy h
  · exact (hdown hy hx h).symm

/-! ### Taking an isomorphism apart -/

namespace SubtreeIso
variable (i : SubtreeIso F G u v)

/-- It goes back as well. -/
theorem below_iff (a b : {x // F.Below u x}) : F.Below a.1 b.1 ↔ G.Below (i.e a).1 (i.e b).1 := by
  obtain ⟨a, ha⟩ := a
  obtain ⟨b, hb⟩ := b
  constructor
  · intro h
    dsimp only at h
    induction h with
    | refl => exact Below.refl _
    | tail hc hd ih =>
      have hcu := ha.trans hc
      exact (ih hcu).tail ((i.child ⟨_, hcu⟩ ⟨_, hb⟩).mp hd)
  · intro h
    have hback : ∀ {w : W} (hw : G.Below v w), G.Below (i.e ⟨a, ha⟩).1 w →
        F.Below a (i.e.symm ⟨w, hw⟩).1 := by
      intro w hw hbelow
      induction hbelow with
      | refl => rw [Subtype.coe_eta, Equiv.symm_apply_apply]; exact Below.refl _
      | tail hc hd ih =>
        have hcv := (i.e ⟨a, ha⟩).2.trans hc
        refine (ih hcv).tail ((i.child _ _).mpr ?_)
        rw [Equiv.apply_symm_apply, Equiv.apply_symm_apply]
        exact hd
    have := hback (i.e ⟨b, hb⟩).2 h
    rwa [Subtype.coe_eta, Equiv.symm_apply_apply] at this

/-- The subtree of a vertex goes to that of its image. -/
def restrict (a : {x // F.Below u x}) : SubtreeIso F G a.1 (i.e a).1 where
  e :=
    { toFun := fun x => ⟨(i.e ⟨x.1, a.2.trans x.2⟩).1, (i.below_iff a ⟨x.1, a.2.trans x.2⟩).mp x.2⟩
      invFun := fun y => ⟨(i.e.symm ⟨y.1, (i.e a).2.trans y.2⟩).1, (i.below_iff a _).mpr (by
        rw [Equiv.apply_symm_apply]
        exact y.2)⟩
      left_inv := fun x => Subtype.ext (by
        dsimp only
        rw [Subtype.coe_eta, Equiv.symm_apply_apply])
      right_inv := fun y => Subtype.ext (by
        dsimp only
        rw [Subtype.coe_eta, Equiv.apply_symm_apply]) }
  root := rfl
  child := fun x y => i.child ⟨x.1, a.2.trans x.2⟩ ⟨y.1, a.2.trans y.2⟩
  color := fun x => i.color ⟨x.1, a.2.trans x.2⟩

/-- The children of the root go to the children of the root. -/
def childEquiv : {c // c ∈ F.children u} ≃ {c // c ∈ G.children v} where
  toFun := fun c => ⟨(i.e ⟨c.1, .child c.2⟩).1, by
    have := (i.child ⟨u, .refl u⟩ ⟨c.1, .child c.2⟩).mp c.2
    rwa [i.root] at this⟩
  invFun := fun c => ⟨(i.e.symm ⟨c.1, .child c.2⟩).1, by
    refine (i.child ⟨u, .refl u⟩ _).mpr ?_
    rw [Equiv.apply_symm_apply, i.root]
    exact c.2⟩
  left_inv := fun c => Subtype.ext (by
    dsimp only
    rw [Subtype.coe_eta, Equiv.symm_apply_apply])
  right_inv := fun c => Subtype.ext (by
    dsimp only
    rw [Subtype.coe_eta, Equiv.apply_symm_apply])

end SubtreeIso

/-! ### Putting one together -/

/-- The root, or a vertex in the subtree of a child. -/
def join (F : Forest V K) (u : V) :
    Option (Σ c : {c // c ∈ F.children u}, {x // F.Below c.1 x}) → {x // F.Below u x}
  | none => ⟨u, .refl u⟩
  | some q => ⟨q.2.1, (Below.child q.1.2).trans q.2.2⟩

theorem join_bijective (F : Forest V K) (u : V) : Function.Bijective (F.join u) := by
  have hne : ∀ q : Σ c : {c // c ∈ F.children u}, {x // F.Below c.1 x}, q.2.1 ≠ u := by
    rintro ⟨⟨c, hc⟩, ⟨x, hx⟩⟩ h
    dsimp only at h
    exact not_below_child hc (h ▸ hx)
  refine ⟨fun p q h => ?_, fun ⟨x, hx⟩ => ?_⟩
  · have hval := congrArg Subtype.val h
    cases p with
    | none =>
      cases q with
      | none => rfl
      | some q => exact absurd hval.symm (hne q)
    | some p =>
      cases q with
      | none => exact absurd hval (hne p)
      | some q =>
        obtain ⟨⟨c, hc⟩, ⟨x, hx⟩⟩ := p
        obtain ⟨⟨c', hc'⟩, ⟨x', hx'⟩⟩ := q
        obtain rfl : x = x' := hval
        obtain rfl := child_unique hc hc' hx hx'
        rfl
  · rcases hx.eq_or_child with rfl | ⟨c, hc, hcx⟩
    · exact ⟨none, rfl⟩
    · exact ⟨some ⟨⟨c, hc⟩, ⟨x, hcx⟩⟩, rfl⟩

/-- A subtree is its root and the subtrees of the children. -/
noncomputable def split (F : Forest V K) (u : V) :
    Option (Σ c : {c // c ∈ F.children u}, {x // F.Below c.1 x}) ≃ {x // F.Below u x} :=
  Equiv.ofBijective (F.join u) (F.join_bijective u)

variable {σ : {c // c ∈ F.children u} ≃ {c // c ∈ G.children v}}

/-- The parts of two subtrees, matched. -/
def glueParts (i : ∀ c, SubtreeIso F G c.1 (σ c).1) :
    Option (Σ c : {c // c ∈ F.children u}, {x // F.Below c.1 x}) ≃
      Option (Σ c : {c // c ∈ G.children v}, {y // G.Below c.1 y}) :=
  Equiv.optionCongr (Equiv.sigmaCongr σ fun c => (i c).e)

/-- Within the parts: the children of the root are the roots of the parts, and otherwise a child is in
    the part of its parent. -/
def PartChild (F : Forest V K) (u : V) :
    Option (Σ c : {c // c ∈ F.children u}, {x // F.Below c.1 x}) →
      Option (Σ c : {c // c ∈ F.children u}, {x // F.Below c.1 x}) → Prop
  | _, none => False
  | none, some q => q.2.1 = q.1.1
  | some p, some q => p.1 = q.1 ∧ q.2.1 ∈ F.children p.2.1

theorem child_join_iff (p q : Option (Σ c : {c // c ∈ F.children u}, {x // F.Below c.1 x})) :
    (F.join u q).1 ∈ F.children (F.join u p).1 ↔ F.PartChild u p q := by
  match p, q with
  | p, none =>
    refine iff_of_false (fun h => ?_) (by cases p <;> exact id)
    exact not_below_child h (F.join u p).2
  | none, some ⟨⟨c, hc⟩, ⟨x, hx⟩⟩ =>
    refine ⟨fun h => (child_unique hc h hx (.refl x)).symm, fun h => ?_⟩
    dsimp only [PartChild] at h
    exact h ▸ hc
  | some ⟨⟨c, hc⟩, ⟨x, hx⟩⟩, some ⟨⟨c', hc'⟩, ⟨y, hy⟩⟩ =>
    refine ⟨fun h => ⟨Subtype.ext (child_unique hc hc' (hx.tail h) hy), h⟩, And.right⟩

theorem partChild_glue (i : ∀ c, SubtreeIso F G c.1 (σ c).1)
    (p q : Option (Σ c : {c // c ∈ F.children u}, {x // F.Below c.1 x})) :
    G.PartChild v (glueParts i p) (glueParts i q) ↔ F.PartChild u p q := by
  match p, q with
  | none, none => rfl
  | some _, none => rfl
  | none, some ⟨c, x⟩ =>
    have hroot := (i c).root
    constructor
    · intro h
      have : (i c).e x = (i c).e ⟨c.1, .refl _⟩ := Subtype.ext (h.trans hroot.symm)
      exact congrArg Subtype.val ((i c).e.injective this)
    · intro h
      obtain rfl : x = ⟨c.1, .refl _⟩ := Subtype.ext h
      exact hroot
  | some ⟨c, x⟩, some ⟨c', y⟩ =>
    constructor
    · rintro ⟨hc, h⟩
      obtain rfl := σ.injective hc
      exact ⟨rfl, ((i c).child x y).mpr h⟩
    · rintro ⟨rfl, h⟩
      exact ⟨rfl, ((i c).child x y).mp h⟩

/-- Isomorphisms of the subtrees of the children make one of the whole subtrees. -/
noncomputable def glue (hcolor : F.color u = G.color v) (i : ∀ c, SubtreeIso F G c.1 (σ c).1) :
    SubtreeIso F G u v where
  e := (F.split u).symm.trans ((glueParts i).trans (G.split v))
  root := by
    have : (F.split u).symm ⟨u, .refl u⟩ = none := (F.split u).symm_apply_eq.mpr rfl
    rw [Equiv.trans_apply, this]
    rfl
  child := fun x y => by
    obtain ⟨p, rfl⟩ := (F.split u).surjective x
    obtain ⟨q, rfl⟩ := (F.split u).surjective y
    simp only [Equiv.trans_apply, Equiv.symm_apply_apply]
    exact (child_join_iff p q).trans ((partChild_glue i p q).symm.trans (child_join_iff _ _).symm)
  color := fun x => by
    obtain ⟨p, rfl⟩ := (F.split u).surjective x
    simp only [Equiv.trans_apply, Equiv.symm_apply_apply]
    cases p with
    | none => exact hcolor.symm
    | some q => exact (i q.1).color q.2

/-- Two subtrees are isomorphic when their roots have one colour and the subtrees of the children
    are isomorphic in pairs. -/
theorem isomorphic_iff : Isomorphic F G u v ↔ F.color u = G.color v ∧
    ∃ σ : {c // c ∈ F.children u} ≃ {c // c ∈ G.children v}, ∀ c, Isomorphic F G c.1 (σ c).1 := by
  constructor
  · rintro ⟨i⟩
    refine ⟨?_, i.childEquiv, fun c => ⟨i.restrict ⟨c.1, .child c.2⟩⟩⟩
    have := i.color ⟨u, .refl u⟩
    rw [i.root] at this
    exact this.symm
  · rintro ⟨hcolor, σ, h⟩
    exact ⟨glue hcolor fun c => (h c).some⟩

end Forest

/-! ### Labels from the leaves up -/

theorem map_eq_map_attach {l : List V} (f : V → L) : l.map f = l.attach.map fun c => f c.1 :=
  (List.attach_map_val (f := f)).symm

theorem card_label [DecidableEq V] [DecidableEq L] {l : List V} (hl : l.Nodup) (f : V → L) (k : L) :
    Fintype.card {c : {c // c ∈ l} // f c.1 = k} = (l.map f).count k := by
  rw [map_eq_map_attach, List.count, List.countP_map, List.countP_eq_length_filter,
    ← List.toFinset_card_of_nodup ((List.nodup_attach.mpr hl).filter _), Fintype.card_subtype]
  congr 1
  ext c
  simp

/-- Two lists without repetitions have the same labels, up to order, when their members can be
    matched label by label. -/
theorem map_perm_iff_exists_equiv [DecidableEq L] {l : List V} {l' : List W} (hl : l.Nodup)
    (hl' : l'.Nodup) (f : V → L) (f' : W → L) : (l.map f).Perm (l'.map f') ↔
      ∃ σ : {c // c ∈ l} ≃ {c // c ∈ l'}, ∀ c, f' (σ c).1 = f c.1 := by
  constructor
  · intro h
    classical
    have hfiber : ∀ k, Nonempty ({c : {c // c ∈ l} // f c.1 = k} ≃
        {c : {c // c ∈ l'} // f' c.1 = k}) := fun k => Fintype.card_eq.mp
      ((card_label hl f k).trans ((h.count_eq k).trans (card_label hl' f' k).symm))
    exact ⟨Equiv.ofFiberEquiv fun k => (hfiber k).some, fun c =>
      Equiv.ofFiberEquiv_map (f := fun c : {c // c ∈ l} => f c.1)
        (g := fun c : {c // c ∈ l'} => f' c.1) _ c⟩
  · rintro ⟨σ, hσ⟩
    have hperm : (l.attach.map σ).Perm l'.attach :=
      (List.perm_ext_iff_of_nodup ((List.nodup_attach.mpr hl).map σ.injective)
        (List.nodup_attach.mpr hl')).mpr fun c => by
          simpa using ⟨(σ.symm c).1, (σ.symm c).2, by simp⟩
    rw [map_eq_map_attach f, map_eq_map_attach f']
    refine List.Perm.trans (List.Perm.of_eq ?_) (hperm.map _)
    rw [List.map_map]
    exact List.map_congr_left fun c _ => (hσ c).symm

/-- Labels that stand for the colour and the labels of the children, in any order, stand for the
    isomorphism class of the coloured subtree. -/
theorem Forest.eq_iff_isomorphic [DecidableEq L] {F : Forest V K} {G : Forest W K} {f : V → L}
    {f' : W → L} (h : ∀ u v, f u = f' v ↔
      F.color u = G.color v ∧ ((F.children u).map f).Perm ((G.children v).map f')) (u : V) :
    ∀ v, f u = f' v ↔ F.Isomorphic G u v := by
  induction u using F.wf.induction with
  | _ u ih =>
    intro v
    rw [h, isomorphic_iff, map_perm_iff_exists_equiv (F.nodup u) (G.nodup v)]
    refine and_congr_right fun _ => exists_congr fun σ => forall_congr' fun c => ?_
    rw [← ih c.1 c.2, eq_comm]

end Lib
