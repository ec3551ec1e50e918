import GraphDialysis.Lib.GroupBy
import GraphDialysis.Lib.SortOn

/-! Groups in ascending order of their keys. The sorted groups are the sorted distinct keys, each
    with the elements that have it (`sortedGroups_eq`), so two lists whose elements correspond, and
    whose keys compare alike, have corresponding groups in the same order (`sortedGroups_corr`);
    the keys themselves may differ. -/

namespace Lib
variable {α α' κ κ' β β' : Type*} [DecidableEq κ] [DecidableEq κ'] [LinearOrder β] [LinearOrder β']

/-- The distinct keys, in order of first use. -/
def keys (key : α → κ) (l : List α) : List κ := (groupBy key l).map (·.1)

theorem mem_keys {key : α → κ} {l : List α} {k : κ} : k ∈ keys key l ↔ ∃ x ∈ l, key x = k := by
  rw [keys, List.mem_map]
  constructor
  · rintro ⟨p, hp, rfl⟩
    exact List.mem_map.mp (mem_groupBy.mp hp).1
  · rintro ⟨x, hx, rfl⟩
    exact ⟨(key x, l.filter fun y => key y = key x),
      mem_groupBy.mpr ⟨List.mem_map_of_mem hx, rfl⟩, rfl⟩

theorem groupBy_eq_map (key : α → κ) (l : List α) :
    groupBy key l = (keys key l).map fun k => (k, l.filter fun x => key x = k) := by
  rw [keys, List.map_map]
  refine (List.map_id (groupBy key l)).symm.trans (List.map_congr_left fun p hp => ?_)
  exact Prod.ext rfl (mem_groupBy.mp hp).2

/-- The groups by ascending rank of their keys. -/
def sortedGroups (rank : κ → β) (key : α → κ) (l : List α) : List (κ × List α) :=
  sortOn (fun p => rank p.1) (groupBy key l)

theorem sortedGroups_eq (rank : κ → β) (key : α → κ) (l : List α) : sortedGroups rank key l =
    (sortOn rank (keys key l)).map fun k => (k, l.filter fun x => key x = k) := by
  rw [sortedGroups, groupBy_eq_map]
  exact sortOn_map (fun _ => rfl) _

theorem mem_sortedGroups {rank : κ → β} {key : α → κ} {l : List α} {p : κ × List α} :
    p ∈ sortedGroups rank key l ↔
      (∃ x ∈ l, key x = p.1) ∧ p.2 = l.filter (fun x => key x = p.1) := by
  rw [sortedGroups, mem_sortOn, mem_groupBy, List.mem_map]

theorem length_sortedGroups (rank : κ → β) (key : α → κ) (l : List α) :
    (sortedGroups rank key l).length = (keys key l).length := by
  rw [sortedGroups, (sortOn_perm _ _).length_eq, keys, List.length_map]

omit [DecidableEq κ] [DecidableEq κ'] in
/-- Two ascending lists between which a relation matches the elements and respects their order are
    matched element by element. -/
theorem forall₂_of_ascending {R : κ → κ' → Prop} {rank : κ → β} {rank' : κ' → β'}
    (hR : ∀ a b a' b', R a b → R a' b' → (rank a < rank a' ↔ rank' b < rank' b')) :
    ∀ {s : List κ} {t : List κ'}, s.Pairwise (fun a b => rank a < rank b) →
      t.Pairwise (fun a b => rank' a < rank' b) → (∀ a ∈ s, ∃ b ∈ t, R a b) →
      (∀ b ∈ t, ∃ a ∈ s, R a b) → List.Forall₂ R s t
  | [], [], _, _, _, _ => .nil
  | [], b :: _, _, _, _, h => by obtain ⟨a, ha, -⟩ := h b List.mem_cons_self; cases ha
  | a :: _, [], _, _, h, _ => by obtain ⟨b, hb, -⟩ := h a List.mem_cons_self; cases hb
  | a :: s, b :: t, hs, ht, hst, hts => by
    rw [List.pairwise_cons] at hs ht
    have hab : R a b := by
      obtain ⟨y, hy, hay⟩ := hst a List.mem_cons_self
      obtain ⟨x, hx, hxb⟩ := hts b List.mem_cons_self
      rcases List.mem_cons.mp hy with rfl | hy
      · exact hay
      · rcases List.mem_cons.mp hx with rfl | hx
        · exact hxb
        · exact absurd ((hR x b a y hxb hay).mpr (ht.1 y hy)) (hs.1 x hx).asymm
    refine .cons hab (forall₂_of_ascending hR hs.2 ht.2 (fun x hx => ?_) fun y hy => ?_)
    · obtain ⟨y, hy, hxy⟩ := hst x (List.mem_cons_of_mem _ hx)
      rcases List.mem_cons.mp hy with rfl | hy
      · exact absurd ((hR a y x y hab hxy).mp (hs.1 x hx)) (lt_irrefl _)
      · exact ⟨y, hy, hxy⟩
    · obtain ⟨x, hx, hxy⟩ := hts y (List.mem_cons_of_mem _ hy)
      rcases List.mem_cons.mp hx with rfl | hx
      · exact absurd ((hR x b x y hab hxy).mpr (ht.1 y hy)) (lt_irrefl _)
      · exact ⟨x, hx, hxy⟩

theorem sortOn_keys_ascending {rank : κ → β} (hinj : Function.Injective rank) (key : α → κ)
    (l : List α) : (sortOn rank (keys key l)).Pairwise fun a b => rank a < rank b := by
  have hnd : (sortOn rank (keys key l)).Nodup :=
    (sortOn_perm rank _).nodup_iff.mpr (keys_nodup key l)
  exact ((sortOn_sorted rank _).and hnd).imp fun h => lt_of_le_of_ne h.1 (hinj.ne h.2)

section
variable {rank : κ → β} {rank' : κ' → β'} {key : α → κ} {key' : α' → κ'} {l : List α} {l' : List α'}

/-- Corresponding lists whose keys compare alike have corresponding keys, in the same order. -/
theorem sortedKeys_corr (e : α → α') (hrank : Function.Injective rank)
    (hrank' : Function.Injective rank') (hl : (l.map e).Perm l')
    (hlt : ∀ x ∈ l, ∀ y ∈ l, rank' (key' (e x)) < rank' (key' (e y)) ↔ rank (key x) < rank (key y)) :
    List.Forall₂ (fun k k' => ∃ x ∈ l, key x = k ∧ key' (e x) = k')
      (sortOn rank (keys key l)) (sortOn rank' (keys key' l')) := by
  have hmem : ∀ y ∈ l', ∃ x ∈ l, e x = y := fun y hy => List.mem_map.mp (hl.mem_iff.mpr hy)
  have hmem' : ∀ x ∈ l, e x ∈ l' := fun x hx => hl.mem_iff.mp (List.mem_map_of_mem hx)
  refine forall₂_of_ascending ?_ (sortOn_keys_ascending hrank key l)
    (sortOn_keys_ascending hrank' key' l') (fun k hk => ?_) fun k hk => ?_
  · rintro _ _ _ _ ⟨x, hx, rfl, rfl⟩ ⟨y, hy, rfl, rfl⟩
    exact (hlt x hx y hy).symm
  · obtain ⟨x, hx, rfl⟩ := mem_keys.mp (mem_sortOn.mp hk)
    exact ⟨_, mem_sortOn.mpr (mem_keys.mpr ⟨e x, hmem' x hx, rfl⟩), x, hx, rfl, rfl⟩
  · obtain ⟨y, hy, rfl⟩ := mem_keys.mp (mem_sortOn.mp hk)
    obtain ⟨x, hx, rfl⟩ := hmem y hy
    exact ⟨_, mem_sortOn.mpr (mem_keys.mpr ⟨x, hx, rfl⟩), x, hx, rfl, rfl⟩

omit [DecidableEq κ] [DecidableEq κ'] in
/-- Keys that compare alike are the same for the same elements. -/
theorem key_eq_iff_of_lt_iff (e : α → α') (hrank : Function.Injective rank)
    (hrank' : Function.Injective rank')
    (hlt : ∀ x ∈ l, ∀ y ∈ l, rank' (key' (e x)) < rank' (key' (e y)) ↔ rank (key x) < rank (key y))
    {x y : α} (hx : x ∈ l) (hy : y ∈ l) : key' (e x) = key' (e y) ↔ key x = key y := by
  rw [← hrank'.eq_iff, ← hrank.eq_iff, le_antisymm_iff, le_antisymm_iff, ← not_lt, ← not_lt,
    hlt y hy x hx, hlt x hx y hy, not_lt, not_lt]

/-- Corresponding lists whose keys compare alike have corresponding groups, in the same order. -/
theorem sortedGroups_corr (e : α → α') (hrank : Function.Injective rank)
    (hrank' : Function.Injective rank') (hl : (l.map e).Perm l')
    (hlt : ∀ x ∈ l, ∀ y ∈ l, rank' (key' (e x)) < rank' (key' (e y)) ↔ rank (key x) < rank (key y)) :
    List.Forall₂ (fun p p' => (p.2.map e).Perm p'.2)
      (sortedGroups rank key l) (sortedGroups rank' key' l') := by
  rw [sortedGroups_eq, sortedGroups_eq, List.forall₂_map_left_iff, List.forall₂_map_right_iff]
  refine (sortedKeys_corr e hrank hrank' hl hlt).imp ?_
  rintro _ _ ⟨x, hx, rfl, rfl⟩
  refine List.Perm.trans ?_ (hl.filter fun y => key' y = key' (e x))
  rw [List.filter_map]
  refine List.Perm.map e (List.Perm.of_eq (List.filter_congr fun y hy => ?_))
  exact decide_eq_decide.mpr (key_eq_iff_of_lt_iff e hrank hrank' hlt hy hx).symm

end

/-! ### Two rankings of one list -/

section
variable {rank : κ → β} {rank' : κ' → β'} {key : α → κ} {key' : α → κ'} {l : List α}

theorem sortedGroups_ascending (hrank : Function.Injective rank) :
    (sortedGroups rank key l).Pairwise fun p q => rank p.1 < rank q.1 := by
  rw [sortedGroups_eq, List.pairwise_map]
  exact sortOn_keys_ascending hrank key l

omit [DecidableEq κ] [DecidableEq κ'] in
/-- Where the groups are the same one after another, their keys are in the same order. -/
theorem forall₂_lt_iff {s : List (κ × List α)} {t : List (κ' × List α)}
    (h : List.Forall₂ (fun p q => p.2 = q.2) s t) (hs : s.Pairwise fun p q => rank p.1 < rank q.1)
    (ht : t.Pairwise fun p q => rank' p.1 < rank' q.1) {p q : κ × List α} (hp : p ∈ s) (hq : q ∈ s)
    (hlt : rank p.1 < rank q.1) :
    ∃ p' ∈ t, ∃ q' ∈ t, p'.2 = p.2 ∧ q'.2 = q.2 ∧ rank' p'.1 < rank' q'.1 := by
  induction h with
  | nil => cases hp
  | @cons a b s t hab hst ih =>
    rw [List.pairwise_cons] at hs ht
    have hfind : ∀ {r}, r ∈ s → ∃ r' ∈ t, r'.2 = r.2 := fun {r} hr => by
      obtain ⟨i, hi, rfl⟩ := List.getElem_of_mem hr
      have hi' : i < t.length := hst.length_eq ▸ hi
      exact ⟨t[i], List.getElem_mem hi', ((List.forall₂_iff_get.mp hst).2 i hi hi').symm⟩
    rcases List.mem_cons.mp hp with rfl | hps <;> rcases List.mem_cons.mp hq with rfl | hqs
    · exact absurd hlt (lt_irrefl _)
    · obtain ⟨q', hq', hsame⟩ := hfind hqs
      exact ⟨b, List.mem_cons_self, q', List.mem_cons_of_mem _ hq', hab.symm, hsame, ht.1 q' hq'⟩
    · exact absurd (hs.1 p hps) hlt.asymm
    · obtain ⟨p', hp', q', hq', h⟩ := ih hs.2 ht.2 hps hqs
      exact ⟨p', List.mem_cons_of_mem _ hp', q', List.mem_cons_of_mem _ hq', h⟩

theorem lt_of_same_groups (hrank : Function.Injective rank) (hrank' : Function.Injective rank')
    (h : List.Forall₂ (fun p q => p.2 = q.2) (sortedGroups rank key l) (sortedGroups rank' key' l))
    {x y : α} (hx : x ∈ l) (hy : y ∈ l) (hlt : rank (key x) < rank (key y)) :
    rank' (key' x) < rank' (key' y) := by
  have hgroup : ∀ z ∈ l, (key z, l.filter fun w => key w = key z) ∈ sortedGroups rank key l :=
    fun z hz => mem_sortedGroups.mpr ⟨⟨z, hz, rfl⟩, rfl⟩
  have hkey : ∀ z ∈ l, ∀ p' ∈ sortedGroups rank' key' l,
      p'.2 = l.filter (fun w => key w = key z) → key' z = p'.1 := by
    intro z hz p' hp' hsame
    have hmem : z ∈ p'.2 := hsame ▸ List.mem_filter.mpr ⟨hz, by simp⟩
    rw [(mem_sortedGroups.mp hp').2] at hmem
    exact of_decide_eq_true (List.mem_filter.mp hmem).2
  obtain ⟨p', hp', q', hq', hxp, hyq, hlt'⟩ := forall₂_lt_iff h (sortedGroups_ascending hrank)
    (sortedGroups_ascending hrank') (hgroup x hx) (hgroup y hy) hlt
  rw [hkey x hx p' hp' hxp, hkey y hy q' hq' hyq]
  exact hlt'

/-- Two rankings of a list give the same groups at the same ranks when they order every two elements
    alike, and only then. -/
theorem sortedGroups_members_eq_iff (hrank : Function.Injective rank)
    (hrank' : Function.Injective rank') :
    (sortedGroups rank key l).map (·.2) = (sortedGroups rank' key' l).map (·.2) ↔
      ∀ x ∈ l, ∀ y ∈ l, rank (key x) < rank (key y) ↔ rank' (key' x) < rank' (key' y) := by
  have hforall : (sortedGroups rank key l).map (·.2) = (sortedGroups rank' key' l).map (·.2) ↔
      List.Forall₂ (fun p q => p.2 = q.2) (sortedGroups rank key l) (sortedGroups rank' key' l) := by
    rw [← List.forall₂_eq_eq_eq, List.forall₂_map_left_iff, List.forall₂_map_right_iff]
  rw [hforall]
  constructor
  · intro h x hx y hy
    exact ⟨lt_of_same_groups hrank hrank' h hx hy,
      lt_of_same_groups hrank' hrank (h.flip.imp fun _ _ => Eq.symm) hx hy⟩
  · intro h
    have hlt : ∀ x ∈ l, ∀ y ∈ l, rank' (key' (id x)) < rank' (key' (id y)) ↔
        rank (key x) < rank (key y) := fun x hx y hy => (h x hx y hy).symm
    rw [sortedGroups_eq, sortedGroups_eq, List.forall₂_map_left_iff, List.forall₂_map_right_iff]
    refine (sortedKeys_corr id hrank hrank' (by rw [List.map_id]) hlt).imp ?_
    rintro _ _ ⟨x, hx, rfl, rfl⟩
    refine List.filter_congr fun y hy => ?_
    exact decide_eq_decide.mpr (key_eq_iff_of_lt_iff id hrank hrank' hlt hy hx).symm

end

end Lib
