import GraphDialysis.Lib.PrefixCode
import GraphDialysis.Lib.RootedForest

/-! Codes of coloured trees: an opening bracket, the text of the colour, the codes of the children in
    a sorted order, a closing bracket. Where no text has a bracket, such codes are read back
    (`selfDelimiting`), so that they are equal exactly on isomorphic trees (`eq_iff_isomorphic`). -/

namespace Lib
variable {V W K α : Type*}

/-- Texts of one kind followed by the other kind are read back. -/
theorem append_inj_of_kinds {P : α → Prop} : ∀ {p q s t : List α}, (∀ x ∈ p, P x) → (∀ x ∈ q, P x) →
    (∀ x ∈ s.head?, ¬P x) → (∀ x ∈ t.head?, ¬P x) → p ++ s = q ++ t → p = q ∧ s = t
  | [], [], _, _, _, _, _, _, h => ⟨rfl, h⟩
  | [], y :: q, s, t, _, hq, hs, _, h => by
    rw [List.nil_append] at h
    exact absurd (hq y List.mem_cons_self) (hs y (by rw [h]; rfl))
  | x :: p, [], s, t, hp, _, _, ht, h => by
    rw [List.nil_append] at h
    exact absurd (hp x List.mem_cons_self) (ht x (by rw [← h]; rfl))
  | x :: p, y :: q, s, t, hp, hq, hs, ht, h => by
    obtain ⟨rfl, hrest⟩ := List.cons.inj h
    obtain ⟨rfl, hst⟩ := append_inj_of_kinds (fun z hz => hp z (List.mem_cons_of_mem _ hz))
      (fun z hz => hq z (List.mem_cons_of_mem _ hz)) hs ht hrest
    exact ⟨rfl, hst⟩

/-- Concatenations of self-delimiting codes that all start with `o` are read back up to a `c`. -/
theorem flatten_inj_until {o c : α} (hoc : o ≠ c) : ∀ {L L' : List (List α)},
    (∀ p ∈ L, ∃ p', p = o :: p') → (∀ q ∈ L', ∃ q', q = o :: q') →
    (∀ p ∈ L, ∀ q ∈ L', SelfDelimiting p q) → ∀ {s t},
      L.flatten ++ c :: s = L'.flatten ++ c :: t → L = L' ∧ s = t
  | [], [], _, _, _, _, _, h => ⟨rfl, (List.cons.inj h).2⟩
  | [], q :: L', _, hq, _, _, _, h => by
    obtain ⟨q', rfl⟩ := hq q List.mem_cons_self
    exact absurd (List.cons.inj h).1.symm hoc
  | p :: L, [], hp, _, _, _, _, h => by
    obtain ⟨p', rfl⟩ := hp p List.mem_cons_self
    exact absurd (List.cons.inj h).1 hoc
  | p :: L, q :: L', hp, hq, hpq, s, t, h => by
    rw [List.flatten_cons, List.flatten_cons, List.append_assoc, List.append_assoc] at h
    obtain ⟨rfl, hrest⟩ := hpq p List.mem_cons_self q List.mem_cons_self _ _ h
    obtain ⟨rfl, hst⟩ := flatten_inj_until hoc (fun p' h => hp p' (List.mem_cons_of_mem _ h))
      (fun q' h => hq q' (List.mem_cons_of_mem _ h)) (fun p' hp' q' hq' =>
        hpq p' (List.mem_cons_of_mem _ hp') q' (List.mem_cons_of_mem _ hq')) hrest
    exact ⟨rfl, hst⟩

/-- How codes are made: the brackets, the texts of the colours, and the order of the children. -/
structure Bracketing (K α : Type*) where
  opening : α
  closing : α
  ne : opening ≠ closing
  text : K → List α
  sort : List (List α) → List (List α)
  perm : ∀ l, (sort l).Perm l
  sort_eq : ∀ {l l'}, l.Perm l' → sort l = sort l'

namespace Bracketing
variable (B : Bracketing K α) {F : Forest V K} {G : Forest W K} {code : V → List α}
  {code' : W → List α}

/-- `code` is the code of the subtrees of `F`. -/
def IsCode (F : Forest V K) (code : V → List α) : Prop := ∀ v, code v =
  B.opening :: (B.text (F.color v) ++ ((B.sort ((F.children v).map code)).flatten ++ [B.closing]))

/-- The texts of the colours have no brackets. -/
def Plain (F : Forest V K) : Prop := ∀ v, ∀ x ∈ B.text (F.color v), x ≠ B.opening ∧ x ≠ B.closing

variable {B} (hF : B.IsCode F code) (hG : B.IsCode G code') (pF : B.Plain F) (pG : B.Plain G)
include hF hG pF pG

/-- The parts of equal codes, whatever follows. -/
theorem parts_eq {u : V} {v : W} (hsub : ∀ c ∈ F.children u, ∀ w, SelfDelimiting (code c) (code' w))
    {s t : List α} (h : code u ++ s = code' v ++ t) : B.text (F.color u) = B.text (G.color v) ∧
      B.sort ((F.children u).map code) = B.sort ((G.children v).map code') ∧ s = t := by
  have hhead : ∀ {L : List (List α)} {s : List α}, (∀ p ∈ L, ∃ p', p = B.opening :: p') →
      ∀ x ∈ (L.flatten ++ B.closing :: s).head?, ¬(x ≠ B.opening ∧ x ≠ B.closing) := by
    intro L s hL x hx
    cases L with
    | nil =>
      rw [List.flatten_nil, List.nil_append, List.head?_cons, Option.mem_some_iff] at hx
      exact fun h => h.2 hx.symm
    | cons p L =>
      obtain ⟨p', rfl⟩ := hL p List.mem_cons_self
      rw [List.flatten_cons, List.cons_append, List.cons_append, List.head?_cons,
        Option.mem_some_iff] at hx
      exact fun h => h.1 hx.symm
  have hopen : ∀ p ∈ B.sort ((F.children u).map code), ∃ p', p = B.opening :: p' := by
    intro p hp
    obtain ⟨c, -, rfl⟩ := List.mem_map.mp ((B.perm _).mem_iff.mp hp)
    exact ⟨_, hF c⟩
  have hopen' : ∀ q ∈ B.sort ((G.children v).map code'), ∃ q', q = B.opening :: q' := by
    intro q hq
    obtain ⟨c, -, rfl⟩ := List.mem_map.mp ((B.perm _).mem_iff.mp hq)
    exact ⟨_, hG c⟩
  rw [hF u, hG v, List.cons_append, List.cons_append] at h
  simp only [List.append_assoc, List.singleton_append] at h
  obtain ⟨htext, hrest⟩ := append_inj_of_kinds (pF u) (pG v) (hhead hopen) (hhead hopen')
    (List.cons.inj h).2
  refine ⟨htext, flatten_inj_until B.ne hopen hopen' (fun p hp q hq => ?_) hrest⟩
  obtain ⟨c, hc, rfl⟩ := List.mem_map.mp ((B.perm _).mem_iff.mp hp)
  obtain ⟨w, -, rfl⟩ := List.mem_map.mp ((B.perm _).mem_iff.mp hq)
  exact hsub c hc w

/-- A code tells by itself where it ends. -/
theorem selfDelimiting (u : V) : ∀ v, SelfDelimiting (code u) (code' v) := by
  induction u using F.wf.induction with
  | _ u ih =>
    intro v s t h
    obtain ⟨htext, hsort, hst⟩ := parts_eq hF hG pF pG (fun c hc => ih c hc) h
    exact ⟨by rw [hF u, hG v, htext, hsort], hst⟩

/-- Codes are equal exactly on isomorphic subtrees. -/
theorem eq_iff_isomorphic [DecidableEq α]
    (hinj : ∀ u v, B.text (F.color u) = B.text (G.color v) → F.color u = G.color v) (u : V) (v : W) :
    code u = code' v ↔ F.Isomorphic G u v := by
  refine Forest.eq_iff_isomorphic (fun u v => ⟨fun h => ?_, fun ⟨hcolor, hperm⟩ => ?_⟩) u v
  · obtain ⟨htext, hsort, -⟩ := parts_eq hF hG pF pG
      (fun c _ w => selfDelimiting hF hG pF pG c w) (congrArg (· ++ []) h)
    exact ⟨hinj u v htext, (B.perm _).symm.trans (hsort ▸ B.perm _)⟩
  · rw [hF u, hG v, hcolor, B.sort_eq hperm]

end Bracketing
end Lib
