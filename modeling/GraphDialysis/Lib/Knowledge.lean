import Mathlib.Data.List.Dedup
import Mathlib.Data.Set.Card
import Mathlib.Logic.Relation
import Mathlib.Order.Defs.PartialOrder

/-! What has been learnt so far about an equivalence relation: some pairs are known to be related
    (`mates`), some are known not to be (`apart`). Learning that a pair is related joins two
    classes, and everything apart from either is then apart from both; learning that a pair is
    not related puts their whole classes apart. The two kinds of knowledge cannot contradict each
    other, by construction.

    `Sound r` relates the knowledge to the relation it is about. Both ways of learning keep it
    when what they are told is true, and neither is then refused (`Sound.not_apart`,
    `Sound.not_mates`). Sound knowledge that has decided every related pair is exact; any other has at
    least as many classes as the relation (`Sound.classCount_le`). -/

namespace Lib
variable {V : Type*}

structure Knowledge (V : Type*) where
  mates : V → V → Prop
  apart : V → V → Prop
  equiv : Equivalence mates
  apart_symm : ∀ {a b}, apart a b → apart b a
  apart_congr : ∀ {a a' b}, mates a a' → apart a b → apart a' b
  apart_irrefl : ∀ a, ¬apart a a

namespace Knowledge

theorem ext {k l : Knowledge V} (hm : ∀ a b, k.mates a b ↔ l.mates a b)
    (ha : ∀ a b, k.apart a b ↔ l.apart a b) : k = l := by
  obtain ⟨m, p, _, _, _, _⟩ := k
  obtain ⟨m', p', _, _, _, _⟩ := l
  obtain rfl : m = m' := funext fun a => funext fun b => propext (hm a b)
  obtain rfl : p = p' := funext fun a => funext fun b => propext (ha a b)
  rfl

/-- Nothing is known. -/
def nothing (V : Type*) : Knowledge V where
  mates := Eq
  apart := fun _ _ => False
  equiv := ⟨fun _ => rfl, Eq.symm, Eq.trans⟩
  apart_symm := id
  apart_congr := fun _ h => h
  apart_irrefl := fun _ => id

variable (k : Knowledge V) (a b : V)

/-- The pair is settled one way or the other. -/
def Decided : Prop := k.mates a b ∨ k.apart a b

/-- In the class of `a` or in that of `b`. -/
def Near (x : V) : Prop := k.mates x a ∨ k.mates x b

/-- Known to be apart from `a` or from `b`. -/
def Far (x : V) : Prop := k.apart a x ∨ k.apart b x

theorem not_apart_of_mates {k : Knowledge V} {a b : V} (h : k.mates a b) : ¬k.apart a b :=
  fun ha => k.apart_irrefl b (k.apart_congr h ha)

theorem apart_congr_right {k : Knowledge V} {a b b' : V} (hb : k.mates b b') (h : k.apart a b) :
    k.apart a b' := k.apart_symm (k.apart_congr hb (k.apart_symm h))

variable {k a b}

theorem Near.congr {x y : V} (h : k.mates x y) (hx : k.Near a b x) : k.Near a b y :=
  hx.imp (fun hx => k.equiv.trans (k.equiv.symm h) hx) fun hx => k.equiv.trans (k.equiv.symm h) hx

theorem Far.congr {x y : V} (h : k.mates x y) (hx : k.Far a b x) : k.Far a b y :=
  hx.imp (apart_congr_right h) (apart_congr_right h)

/-- Two classes that are not apart stay disjoint from what is apart from either. -/
theorem Near.not_far {x : V} (hab : ¬k.apart a b) (hx : k.Near a b x) : ¬k.Far a b x := by
  rintro (h | h)
  · rcases hx with hx | hx
    · exact k.apart_irrefl a (apart_congr_right hx h)
    · exact hab (apart_congr_right hx h)
  · rcases hx with hx | hx
    · exact hab (k.apart_symm (apart_congr_right hx h))
    · exact k.apart_irrefl b (apart_congr_right hx h)

/-- Learn that `a` and `b` are related. -/
def join (k : Knowledge V) (a b : V) (hab : ¬k.apart a b) : Knowledge V where
  mates := fun x y => k.mates x y ∨ (k.Near a b x ∧ k.Near a b y)
  apart := fun x y => k.apart x y ∨ (k.Near a b x ∧ k.Far a b y) ∨ (k.Near a b y ∧ k.Far a b x)
  equiv := {
    refl := fun x => Or.inl (k.equiv.refl x)
    symm := fun h => h.imp k.equiv.symm And.symm
    trans := by
      rintro x y z (hxy | ⟨hx, hy⟩) (hyz | ⟨hy', hz⟩)
      · exact Or.inl (k.equiv.trans hxy hyz)
      · exact Or.inr ⟨hy'.congr (k.equiv.symm hxy), hz⟩
      · exact Or.inr ⟨hx, hy.congr hyz⟩
      · exact Or.inr ⟨hx, hz⟩ }
  apart_symm := fun h => h.imp k.apart_symm Or.symm
  apart_congr := by
    rintro x x' y (hx | ⟨hx, hx'⟩) (h | ⟨h1, h2⟩ | ⟨h1, h2⟩)
    · exact Or.inl (k.apart_congr hx h)
    · exact Or.inr (Or.inl ⟨h1.congr hx, h2⟩)
    · exact Or.inr (Or.inr ⟨h1, h2.congr hx⟩)
    · refine Or.inr (Or.inl ⟨hx', ?_⟩)
      exact hx.imp (fun hx => k.apart_congr hx h) fun hx => k.apart_congr hx h
    · exact Or.inr (Or.inl ⟨hx', h2⟩)
    · exact absurd h2 (hx.not_far hab)
  apart_irrefl := by
    rintro x (h | ⟨h1, h2⟩ | ⟨h1, h2⟩)
    · exact k.apart_irrefl x h
    · exact h1.not_far hab h2
    · exact h1.not_far hab h2

/-- Learn that `a` and `b` are not related. -/
def separate (k : Knowledge V) (a b : V) (hab : ¬k.mates a b) : Knowledge V where
  mates := k.mates
  apart := fun x y => k.apart x y ∨ (k.mates x a ∧ k.mates y b) ∨ (k.mates x b ∧ k.mates y a)
  equiv := k.equiv
  apart_symm := fun h => h.imp k.apart_symm fun h => h.symm.imp And.symm And.symm
  apart_congr := by
    intro x x' y hx h
    have hx' := k.equiv.symm hx
    exact h.imp (k.apart_congr hx) fun h => h.imp (fun h => ⟨k.equiv.trans hx' h.1, h.2⟩)
      fun h => ⟨k.equiv.trans hx' h.1, h.2⟩
  apart_irrefl := by
    rintro x (h | ⟨h1, h2⟩ | ⟨h1, h2⟩)
    · exact k.apart_irrefl x h
    · exact hab (k.equiv.trans (k.equiv.symm h1) h2)
    · exact hab (k.equiv.trans (k.equiv.symm h2) h1)

/-- `l` knows all that `k` knows. -/
structure Le (k l : Knowledge V) : Prop where
  mates : ∀ {x y}, k.mates x y → l.mates x y
  apart : ∀ {x y}, k.apart x y → l.apart x y

theorem Le.refl (k : Knowledge V) : k.Le k := ⟨id, id⟩

theorem Le.trans {k l m : Knowledge V} (h : k.Le l) (h' : l.Le m) : k.Le m :=
  ⟨fun hx => h'.mates (h.mates hx), fun hx => h'.apart (h.apart hx)⟩

theorem Le.decided {k l : Knowledge V} (h : k.Le l) (hd : k.Decided a b) : l.Decided a b :=
  hd.imp h.mates h.apart

theorem le_join (hab : ¬k.apart a b) : k.Le (k.join a b hab) := ⟨Or.inl, Or.inl⟩

theorem le_separate (hab : ¬k.mates a b) : k.Le (k.separate a b hab) := ⟨id, Or.inl⟩

theorem mates_join (hab : ¬k.apart a b) : (k.join a b hab).mates a b :=
  Or.inr ⟨Or.inl (k.equiv.refl a), Or.inr (k.equiv.refl b)⟩

theorem apart_separate (hab : ¬k.mates a b) : (k.separate a b hab).apart a b :=
  Or.inr (Or.inl ⟨k.equiv.refl a, k.equiv.refl b⟩)

/-- A pair that is already related brings nothing new. -/
theorem join_of_mates (hab : ¬k.apart a b) (h : k.mates a b) : k.join a b hab = k := by
  have hnear : ∀ {x}, k.Near a b x → k.mates x a := fun hx =>
    hx.elim id fun hx => k.equiv.trans hx (k.equiv.symm h)
  have hfar : ∀ {x}, k.Far a b x → k.apart a x := fun hx =>
    hx.elim id fun hx => k.apart_congr (k.equiv.symm h) hx
  refine ext (fun x y => ⟨?_, Or.inl⟩) fun x y => ⟨?_, Or.inl⟩
  · rintro (hxy | ⟨hx, hy⟩)
    · exact hxy
    · exact k.equiv.trans (hnear hx) (k.equiv.symm (hnear hy))
  · rintro (hxy | ⟨hx, hy⟩ | ⟨hy, hx⟩)
    · exact hxy
    · exact k.apart_congr (k.equiv.symm (hnear hx)) (hfar hy)
    · exact k.apart_symm (k.apart_congr (k.equiv.symm (hnear hy)) (hfar hx))

/-! ### Knowledge about a relation -/

variable {r : V → V → Prop}

/-- All that is known is true of `r`. -/
structure Sound (r : V → V → Prop) (k : Knowledge V) : Prop where
  mates : ∀ {x y}, k.mates x y → r x y
  apart : ∀ {x y}, k.apart x y → ¬r x y

theorem Sound.not_apart (h : k.Sound r) (hab : r a b) : ¬k.apart a b := fun ha => h.apart ha hab

theorem Sound.not_mates (h : k.Sound r) (hab : ¬r a b) : ¬k.mates a b := fun hm => hab (h.mates hm)

theorem sound_nothing (hr : Equivalence r) : (nothing V).Sound r :=
  ⟨fun h => h ▸ hr.refl _, fun h => h.elim⟩

theorem sound_join (hr : Equivalence r) (h : k.Sound r) (hab : r a b) :
    (k.join a b (h.not_apart hab)).Sound r := by
  have hnear : ∀ {x}, k.Near a b x → r x a := fun hx =>
    hx.elim h.mates fun hx => hr.trans (h.mates hx) (hr.symm hab)
  have hfar : ∀ {x}, k.Far a b x → ¬r x a := fun hx hxa =>
    hx.elim (fun hx => h.apart hx (hr.symm hxa))
      fun hx => h.apart hx (hr.trans (hr.symm hab) (hr.symm hxa))
  refine ⟨?_, ?_⟩
  · rintro x y (hxy | ⟨hx, hy⟩)
    · exact h.mates hxy
    · exact hr.trans (hnear hx) (hr.symm (hnear hy))
  · rintro x y (hxy | ⟨hx, hy⟩ | ⟨hy, hx⟩) hxy'
    · exact h.apart hxy hxy'
    · exact hfar hy (hr.trans (hr.symm hxy') (hnear hx))
    · exact hfar hx (hr.trans hxy' (hnear hy))

theorem sound_separate (hr : Equivalence r) (h : k.Sound r) (hab : ¬r a b) :
    (k.separate a b (h.not_mates hab)).Sound r := by
  refine ⟨h.mates, ?_⟩
  rintro x y (hxy | ⟨hx, hy⟩ | ⟨hx, hy⟩) hxy'
  · exact h.apart hxy hxy'
  · exact hab (hr.trans (hr.symm (h.mates hx)) (hr.trans hxy' (h.mates hy)))
  · exact hab (hr.trans (hr.symm (h.mates hy)) (hr.trans (hr.symm hxy') (h.mates hx)))

/-- Sound knowledge that decides every related pair is the relation itself. -/
theorem Sound.exact (h : k.Sound r) (hdec : ∀ a b, r a b → k.Decided a b) (a b : V) :
    k.mates a b ↔ r a b :=
  ⟨h.mates, fun hab => (hdec a b hab).resolve_right (h.not_apart hab)⟩

/-- How many classes of `r` a list meets. -/
noncomputable def classCount (r : V → V → Prop) (l : List V) : ℕ :=
  ((fun v => {w | r v w}) '' {v | v ∈ l}).ncard

/-- Sound knowledge has not joined different classes, so it does not count fewer of them. -/
theorem Sound.classCount_le [DecidableEq V] (hr : Equivalence r) (h : k.Sound r) {rep : V → V}
    (hrep : ∀ v, k.mates v (rep v)) (l : List V) : classCount r l ≤ (l.map rep).dedup.length := by
  have hsub : (fun v => {w | r v w}) '' {v | v ∈ l} ⊆
      (fun v => {w | r v w}) '' ((l.map rep).toFinset : Set V) := by
    rintro _ ⟨v, hv, rfl⟩
    refine ⟨rep v, by simpa using ⟨v, hv, rfl⟩, ?_⟩
    have hmates := h.mates (hrep v)
    ext w
    exact ⟨fun hw => hr.trans hmates hw, fun hw => hr.trans (hr.symm hmates) hw⟩
  calc classCount r l ≤ ((fun v => {w | r v w}) '' ((l.map rep).toFinset : Set V)).ncard :=
        Set.ncard_le_ncard hsub ((Finset.finite_toSet _).image _)
    _ ≤ ((l.map rep).toFinset : Set V).ncard := Set.ncard_image_le (Finset.finite_toSet _)
    _ = (l.map rep).dedup.length := by rw [Set.ncard_coe_finset, List.card_toFinset]

/-! ### Knowledge from a history -/

/-- `a` and `b` are on the two sides of a separated pair, up to the relation `r`. -/
def Divides (r : V → V → Prop) (separations : List (V × V)) (a b : V) : Prop :=
  ∃ p ∈ separations, (r a p.1 ∧ r b p.2) ∨ (r a p.2 ∧ r b p.1)

/-- What is known is what follows from pairs that were joined and pairs that were separated. -/
structure Recorded (unions separations : List (V × V)) (k : Knowledge V) : Prop where
  mates : ∀ a b, k.mates a b ↔ Relation.EqvGen (fun x y => (x, y) ∈ unions) a b
  apart : ∀ a b, k.apart a b ↔ Divides k.mates separations a b

theorem recorded_nothing : (nothing V).Recorded [] [] where
  mates := fun a b => by
    have hnil : (fun x y : V => (x, y) ∈ ([] : List (V × V))) ≤ Eq := fun x y h =>
      absurd h List.not_mem_nil
    constructor
    · rintro rfl; exact .refl a
    · intro h
      exact (Equivalence.eqvGen_iff (r := Eq) ⟨fun _ => rfl, Eq.symm, Eq.trans⟩).mp
        (Relation.EqvGen.mono hnil _ _ h)
  apart := fun a b => ⟨fun h => h.elim, fun ⟨p, hp, _⟩ => absurd hp List.not_mem_nil⟩

variable {unions separations : List (V × V)}

theorem Recorded.separate (h : k.Recorded unions separations) (hab : ¬k.mates a b) :
    (k.separate a b hab).Recorded unions (separations ++ [(a, b)]) where
  mates := h.mates
  apart := fun x y => by
    change k.apart x y ∨ _ ↔ Divides k.mates (separations ++ [(a, b)]) x y
    rw [h.apart x y, Divides, Divides]
    simp only [List.mem_append, List.mem_singleton, or_and_right, exists_or, exists_eq_left]

theorem Recorded.join (h : k.Recorded unions separations) (hab : ¬k.apart a b) :
    (k.join a b hab).Recorded (unions ++ [(a, b)]) separations where
  mates := fun x y => by
    have hmono : (fun x y => (x, y) ∈ unions) ≤ fun x y => (x, y) ∈ unions ++ [(a, b)] :=
      fun x y hxy => List.mem_append_left _ hxy
    have hold : ∀ {x y}, k.mates x y → Relation.EqvGen (fun x y => (x, y) ∈ unions ++ [(a, b)]) x y :=
      fun hxy => Relation.EqvGen.mono hmono _ _ ((h.mates _ _).mp hxy)
    have hnew : Relation.EqvGen (fun x y => (x, y) ∈ unions ++ [(a, b)]) a b := .rel _ _ (by simp)
    have hnear : ∀ {x}, k.Near a b x →
        Relation.EqvGen (fun x y => (x, y) ∈ unions ++ [(a, b)]) x a := fun hx =>
      hx.elim hold fun hx => (hold hx).trans _ _ _ (hnew.symm _ _)
    constructor
    · rintro (hxy | ⟨hx, hy⟩)
      · exact hold hxy
      · exact (hnear hx).trans _ _ _ ((hnear hy).symm _ _)
    · intro hxy
      refine (k.join a b hab).equiv.eqvGen_iff.mp (Relation.EqvGen.mono (fun x y hxy => ?_) _ _ hxy)
      rcases List.mem_append.mp hxy with hxy | hxy
      · exact Or.inl ((h.mates x y).mpr (.rel _ _ hxy))
      · cases List.mem_singleton.mp hxy
        exact mates_join hab
  apart := fun x y => by
    have hle := le_join hab
    have hnear : ∀ {x}, k.Near a b x → (k.join a b hab).mates x a ∧ (k.join a b hab).mates x b :=
      fun hx => ⟨Or.inr ⟨hx, Or.inl (k.equiv.refl a)⟩, Or.inr ⟨hx, Or.inr (k.equiv.refl b)⟩⟩
    have hdiv : ∀ {x y}, k.apart x y → Divides (k.join a b hab).mates separations x y := fun hxy => by
      obtain ⟨p, hp, hsides⟩ := (h.apart _ _).mp hxy
      exact ⟨p, hp, hsides.imp (fun hs => ⟨hle.mates hs.1, hle.mates hs.2⟩)
        fun hs => ⟨hle.mates hs.1, hle.mates hs.2⟩⟩
    have hcongr : ∀ {x x' y}, (k.join a b hab).mates x x' →
        Divides (k.join a b hab).mates separations x' y →
        Divides (k.join a b hab).mates separations x y := fun hx hd => by
      obtain ⟨p, hp, hsides⟩ := hd
      exact ⟨p, hp, hsides.imp (fun hs => ⟨(k.join a b hab).equiv.trans hx hs.1, hs.2⟩)
        fun hs => ⟨(k.join a b hab).equiv.trans hx hs.1, hs.2⟩⟩
    have hsymm : ∀ {x y}, Divides (k.join a b hab).mates separations x y →
        Divides (k.join a b hab).mates separations y x := fun hd => by
      obtain ⟨p, hp, hsides⟩ := hd
      exact ⟨p, hp, hsides.symm.imp And.symm And.symm⟩
    have hfar : ∀ {x y}, k.Near a b x → k.Far a b y →
        Divides (k.join a b hab).mates separations x y := fun hx hy =>
      hy.elim (fun hy => hcongr (hnear hx).1 (hdiv hy)) fun hy => hcongr (hnear hx).2 (hdiv hy)
    constructor
    · rintro (hxy | ⟨hx, hy⟩ | ⟨hy, hx⟩)
      · exact hdiv hxy
      · exact hfar hx hy
      · exact hsymm (hfar hy hx)
    · rintro ⟨p, hp, hsides⟩
      have hp' : (k.join a b hab).apart p.1 p.2 :=
        hle.apart ((h.apart _ _).mpr ⟨p, hp, Or.inl ⟨k.equiv.refl _, k.equiv.refl _⟩⟩)
      rcases hsides with ⟨hx, hy⟩ | ⟨hx, hy⟩
      · exact (k.join a b hab).apart_congr ((k.join a b hab).equiv.symm hx)
          (apart_congr_right ((k.join a b hab).equiv.symm hy) hp')
      · exact (k.join a b hab).apart_congr ((k.join a b hab).equiv.symm hx)
          (apart_congr_right ((k.join a b hab).equiv.symm hy) ((k.join a b hab).apart_symm hp'))

end Knowledge

end Lib
