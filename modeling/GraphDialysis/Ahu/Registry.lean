import GraphDialysis.Content.KString
import GraphDialysis.Graph.Csr
import Mathlib.Data.List.GetD

/-! `colored_ahu.cpp`: the native registry and the tree encoder. A label stands for a colour and the
    sorted labels of the children; labels are numbered by first use, and the strings belonging to
    them are built bottom-up from the registry. The encoder walks the tree with an explicit stack
    and labels a vertex when its neighbours, except the one it was entered from, are labelled. -/

namespace Dialysis.Ahu

/-- A registry entry; `color` is `none` for an uncoloured vertex. -/
structure Key where
  color : Option KString
  children : List ℤ
deriving DecidableEq

/-- The label of a key: the position of its first use. -/
def internKey (keys : List Key) (k : Key) : ℤ × List Key :=
  if k ∈ keys then (keys.idxOf k, keys) else (keys.length, keys ++ [k])

/-- The string of a key, given those of the labels before it. -/
def renderKey (strs : List KString) (k : Key) : KString :=
  '(' :: k.color.getD ['*'] ++
    (sortNative (k.children.map fun c => strs.getD c.toNat [])).flatten ++ [')']

/-- `ensure_strings_up_to`: the strings of the labels in order. -/
def strings (keys : List Key) : List KString := keys.foldl (fun strs k => strs ++ [renderKey strs k]) []

/-- The canonical string of a label, empty for a number that is none. -/
def canonicalString (keys : List Key) (label : ℤ) : KString :=
  if label < 0 ∨ (keys.length : ℤ) ≤ label then []
  else (strings (keys.take (label.toNat + 1))).getD label.toNat []

/-- A vertex being encoded; `rest` is what `pos` has still to pass of its row. -/
structure Frame (n : ℕ) where
  node : Fin n
  parent : Option (Fin n)
  rest : List (Fin n)

/-- The local variables of `encode_tree` and the registry. -/
structure Encoder (n : ℕ) where
  stk : List (Frame n)
  labels : Fin n → ℤ
  keys : List Key

variable {n : ℕ} (csr : Csr n) (colors : Fin n → Option KString)

/-- One turn of the loop: enter the next child, or label the vertex and leave it. -/
def encodeStep (s : Encoder n) : Encoder n :=
  match s.stk with
  | [] => s
  | top :: below =>
    match top.rest.dropWhile fun w => some w = top.parent with
    | child :: rest =>
      { s with stk := ⟨child, some top.node, csr.row child⟩ :: { top with rest := rest } :: below }
    | [] =>
      let ch := ((csr.row top.node).filter fun w => some w ≠ top.parent).map s.labels
      let p := internKey s.keys ⟨colors top.node, ch.insertionSort (· ≤ ·)⟩
      { stk := below, labels := Function.update s.labels top.node p.1, keys := p.2 }

/-- `while (!stk.empty())`, for at most so many turns. -/
def encodeRun : ℕ → Encoder n → Option (Encoder n)
  | 0, s => if s.stk = [] then some s else none
  | fuel + 1, s => if s.stk = [] then some s else encodeRun fuel (encodeStep csr colors s)

/-- `encode_tree`, from the registry that earlier trees of the session have left. -/
def encodeTree (root : Fin n) (keys : List Key) : Option (Encoder n) :=
  encodeRun csr colors (2 * n) ⟨[⟨root, none, csr.row root⟩], fun _ => -1, keys⟩

/-- `computeLabels`: every vertex of the tree is entered and left once. -/
def computeLabels (root : Fin n) : Option (Encoder n) :=
  encodeRun csr colors (2 * n) ⟨[⟨root, none, csr.row root⟩], fun _ => -1, []⟩

/-! ### Strings of labels -/

theorem strings_concat (keys : List Key) (k : Key) :
    strings (keys ++ [k]) = strings keys ++ [renderKey (strings keys) k] := by
  rw [strings, List.foldl_append]; rfl

theorem length_strings (keys : List Key) : (strings keys).length = keys.length := by
  induction keys using List.reverseRecOn with
  | nil => rfl
  | append_singleton keys k ih => rw [strings_concat, List.length_append, List.length_append, ih]; rfl

/-- Later labels do not change the strings of earlier ones. -/
theorem strings_append (keys more : List Key) : ∃ t, strings (keys ++ more) = strings keys ++ t := by
  induction more using List.reverseRecOn with
  | nil => exact ⟨[], by simp⟩
  | append_singleton more k ih =>
    obtain ⟨t, ht⟩ := ih
    refine ⟨t ++ [renderKey (strings (keys ++ more)) k], ?_⟩
    rw [← List.append_assoc, strings_concat, ht, List.append_assoc]

/-- The string of a label in a registry. -/
def stringOf (keys : List Key) (label : ℤ) : KString := (strings keys).getD label.toNat []

theorem stringOf_append {keys : List Key} (more : List Key) {l : ℤ} (h0 : 0 ≤ l)
    (hl : l < keys.length) : stringOf (keys ++ more) l = stringOf keys l := by
  obtain ⟨t, ht⟩ := strings_append keys more
  rw [stringOf, stringOf, ht, List.getD_append]
  rw [length_strings]
  omega

theorem canonicalString_eq {keys : List Key} {l : ℤ} (h0 : 0 ≤ l) (hl : l < keys.length) :
    canonicalString keys l = stringOf keys l := by
  rw [canonicalString, if_neg (by omega)]
  obtain ⟨t, ht⟩ := strings_append (keys.take (l.toNat + 1)) (keys.drop (l.toNat + 1))
  rw [List.take_append_drop] at ht
  rw [stringOf, ht, List.getD_append]
  rw [length_strings, List.length_take]
  omega

/-- The labels in a list are those of a registry. -/
def Valid (keys : List Key) (ls : List ℤ) : Prop := ∀ c ∈ ls, 0 ≤ c ∧ c < keys.length

theorem Valid.append {keys : List Key} {ls : List ℤ} (h : Valid keys ls) (more : List Key) :
    Valid (keys ++ more) ls := fun c hc => by
  have := h c hc
  rw [List.length_append]
  omega

theorem renderKey_append {keys : List Key} (more : List Key) {k : Key} (h : Valid keys k.children) :
    renderKey (strings (keys ++ more)) k = renderKey (strings keys) k := by
  have : (k.children.map fun c => (strings (keys ++ more)).getD c.toNat []) =
      k.children.map fun c => (strings keys).getD c.toNat [] :=
    List.map_congr_left fun c hc => stringOf_append more (h c hc).1 (h c hc).2
  rw [renderKey, renderKey, this]

/-- Post-order: no key is there twice, every key speaks of labels before its own, and its string is
    made of theirs. -/
structure RegistryOk (keys : List Key) : Prop where
  nodup : keys.Nodup
  valid : ∀ k ∈ keys, Valid keys k.children
  below : ∀ i (h : i < keys.length), ∀ c ∈ keys[i].children, c < i
  render : ∀ i (h : i < keys.length), stringOf keys i = renderKey (strings keys) keys[i]

theorem registryOk_nil : RegistryOk [] := ⟨List.nodup_nil, by simp, by simp, by simp⟩

/-- `l` is the label of `k`. -/
def HasKey (keys : List Key) (l : ℤ) (k : Key) : Prop := 0 ≤ l ∧ keys[l.toNat]? = some k

section HasKey
variable {keys : List Key} {l l' : ℤ} {k k' : Key}

theorem HasKey.lt (h : HasKey keys l k) : l < keys.length := by
  have := (List.getElem?_eq_some_iff.mp h.2).1
  have := h.1
  omega

theorem HasKey.append (h : HasKey keys l k) (more : List Key) : HasKey (keys ++ more) l k := by
  refine ⟨h.1, ?_⟩
  rw [List.getElem?_append_left (List.getElem?_eq_some_iff.mp h.2).1]
  exact h.2

/-- Labels are equal when their keys are. -/
theorem HasKey.eq_iff (hnd : keys.Nodup) (h : HasKey keys l k) (h' : HasKey keys l' k') :
    l = l' ↔ k = k' := by
  obtain ⟨hl, he⟩ := List.getElem?_eq_some_iff.mp h.2
  obtain ⟨hl', he'⟩ := List.getElem?_eq_some_iff.mp h'.2
  rw [← he, ← he', hnd.getElem_inj_iff]
  have := h.1
  have := h'.1
  omega

/-- The labels in a key are smaller than its own. -/
theorem HasKey.child_lt (hk : RegistryOk keys) (h : HasKey keys l k) {c : ℤ} (hc : c ∈ k.children) :
    0 ≤ c ∧ c < l := by
  obtain ⟨hl, rfl⟩ := List.getElem?_eq_some_iff.mp h.2
  have h0 := h.1
  have := hk.below _ hl c hc
  exact ⟨(hk.valid _ (List.getElem_mem hl) c hc).1, by omega⟩

end HasKey

/-- The label of a key is valid and belongs to it, its string is that of the key, and the registry
    only grows. -/
theorem internKey_spec {keys : List Key} {k : Key} (h : RegistryOk keys) (hk : Valid keys k.children) :
    RegistryOk (internKey keys k).2 ∧ (∃ more, (internKey keys k).2 = keys ++ more) ∧
      HasKey (internKey keys k).2 (internKey keys k).1 k ∧
      stringOf (internKey keys k).2 (internKey keys k).1 = renderKey (strings keys) k := by
  rw [internKey]
  by_cases hmem : k ∈ keys
  · rw [if_pos hmem]
    have hlt := List.idxOf_lt_length_of_mem hmem
    exact ⟨h, ⟨[], by simp⟩, ⟨by simp, by simp [List.getElem?_eq_getElem hlt]⟩,
      by rw [h.render _ hlt, List.getElem_idxOf]⟩
  · rw [if_neg hmem]
    have hnew : stringOf (keys ++ [k]) (keys.length : ℤ) = renderKey (strings keys) k := by
      rw [stringOf, strings_concat, Int.toNat_natCast,
        List.getD_append_right _ _ _ _ (by rw [length_strings]), length_strings, Nat.sub_self]
      rfl
    have hlast : ∀ {i : ℕ}, i < (keys ++ [k]).length → i < keys.length ∨ i = keys.length := by
      intro i hi
      rw [List.length_append, List.length_singleton] at hi
      omega
    refine ⟨⟨?_, fun k' hk' => ?_, fun i hi c hc => ?_, fun i hi => ?_⟩, ⟨[k], rfl⟩, ⟨by simp, by simp⟩,
      hnew⟩
    · refine List.nodup_append.mpr ⟨h.nodup, List.nodup_singleton k, fun a ha b hb hab => ?_⟩
      exact hmem (List.mem_singleton.mp hb ▸ hab ▸ ha)
    · rcases List.mem_append.mp hk' with hk' | hk'
      · exact (h.valid k' hk').append [k]
      · rw [List.mem_singleton.mp hk']; exact hk.append [k]
    · rcases hlast hi with hlt | rfl
      · rw [List.getElem_append_left hlt] at hc
        exact h.below i hlt c hc
      · rw [List.getElem_concat_length rfl] at hc
        exact (hk c hc).2
    · rcases hlast hi with hlt | rfl
      · rw [stringOf_append [k] (by omega) (by exact_mod_cast hlt), h.render i hlt,
          List.getElem_append_left hlt, renderKey_append [k] (h.valid _ (List.getElem_mem hlt))]
      · rw [hnew, List.getElem_concat_length rfl, renderKey_append [k] hk]

end Dialysis.Ahu
