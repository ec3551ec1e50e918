import GraphDialysis.Util.GraphIO

/-! DIMACS edge files as lists of lines: comments, problem lines and edges, their vertices numbered from
    1. `loadDimacs_file`: on every file whose ids are in range `loadDimacs` builds the graph of the
    edges, with repetitions, reversed repetitions and loops still among them. -/

namespace Dialysis.GraphIO
open Lib Content

inductive DimacsLine
  | comment
  | blank
  | problem (format : KString) (n m : ℕ)
  | edge (u v : ℕ)

namespace DimacsLine

/-- The words of a line that is no comment. -/
def words : DimacsLine → List KString
  | problem format n m => [['p'], format, digits n, digits m]
  | edge u v => [['e'], digits u, digits v]
  | _ => []

/-- Visible ASCII. -/
abbrev Visible (c : Char) : Prop := 33 ≤ c.toNat ∧ c.toNat ≤ 126

/-- Blanks and tabs. -/
def isBlank (c : Char) : Bool := c = ' ' ∨ c = '\t'

instance (t : KString) : Decidable (∀ c ∈ t, Visible c ∨ isBlank c) := List.decidableBAll _ t

/-- `t` is the line as text. A comment is free behind its letter, and elsewhere the words stand with any
    blanks around them. -/
def Spells (t : KString) : DimacsLine → Prop
  | comment => OneLine t ∧ (t = ['c'] ∨ ∃ s, t = 'c' :: ' ' :: s)
  | line => (∀ c ∈ t, Visible c ∨ isBlank c) ∧ Lib.words isBlank t = line.words

/-- Numbers are Ints. -/
def Valid : DimacsLine → Prop
  | problem _ n _ => n < 2 ^ 31
  | edge u v => (0 < u ∧ u < 2 ^ 31) ∧ 0 < v ∧ v < 2 ^ 31
  | _ => True

instance : ∀ line : DimacsLine, Decidable line.Valid
  | comment => .isTrue trivial
  | blank => .isTrue trivial
  | problem _ n _ => inferInstanceAs (Decidable (n < 2 ^ 31))
  | edge u v => inferInstanceAs (Decidable ((0 < u ∧ u < 2 ^ 31) ∧ 0 < v ∧ v < 2 ^ 31))

/-- The number of vertices after the line. -/
def count (n : ℕ) : DimacsLine → ℕ
  | problem _ k _ => k
  | _ => n

/-- The edge of the line, counted from 0. -/
def edges : DimacsLine → List (ℕ × ℕ)
  | edge u v => [(u - 1, v - 1)]
  | _ => []

end DimacsLine

/-- A DIMACS file, each line with its text; the last problem line gives the number of vertices. -/
structure DimacsFile where
  rows : List (KString × DimacsLine)
  spelled : ∀ row ∈ rows, row.2.Spells row.1 ∧ row.2.Valid
  inRange : ∀ p ∈ (rows.map Prod.snd).flatMap DimacsLine.edges,
    p.1 < (rows.map Prod.snd).foldl DimacsLine.count 0 ∧
      p.2 < (rows.map Prod.snd).foldl DimacsLine.count 0

namespace DimacsFile
variable (file : DimacsFile)

def text : KString := file.rows.flatMap fun row => row.1 ++ ['\n']

def n : ℕ := (file.rows.map Prod.snd).foldl DimacsLine.count 0

/-- The edges, in the order of the file. -/
def edges : List (Fin file.n × Fin file.n) :=
  ((file.rows.map Prod.snd).flatMap DimacsLine.edges).attach.map fun p =>
    (⟨p.1.1, (file.inRange p.1 p.2).1⟩, ⟨p.1.2, (file.inRange p.1 p.2).2⟩)

end DimacsFile

/-! ### Blanks and words -/

theorem isBlank_eq_false {c : Char} (h : DimacsLine.Visible c) : DimacsLine.isBlank c = false := by
  obtain ⟨hlo, -⟩ := h
  simp only [DimacsLine.isBlank, decide_eq_false_iff_not]
  rintro (rfl | rfl) <;> exact absurd hlo (by decide)

/-- A class of separators that has the blank and the tab and nothing visible. -/
def Separates (sep : Char → Bool) : Prop :=
  (sep ' ' = true ∧ sep '\t' = true) ∧ ∀ c, DimacsLine.Visible c → sep c = false

theorem isWhitespace_separates : Separates isWhitespace := by
  refine ⟨by decide, fun c h => ?_⟩
  obtain ⟨hlo, hhi⟩ := h
  simp only [isWhitespace, decide_eq_false_iff_not]
  omega

theorem isRegexSpace_separates : Separates isRegexSpace := by
  refine ⟨by decide, fun c h => ?_⟩
  obtain ⟨hlo, hhi⟩ := h
  simp only [isRegexSpace, decide_eq_false_iff_not]
  omega

theorem Separates.eq_isBlank {sep : Char → Bool} (h : Separates sep) {c : Char}
    (hc : DimacsLine.Visible c ∨ DimacsLine.isBlank c) : sep c = DimacsLine.isBlank c := by
  rcases hc with hc | hc
  · rw [h.2 c hc, isBlank_eq_false hc]
  · rw [hc]
    rcases of_decide_eq_true hc with rfl | rfl
    · exact h.1.1
    · exact h.1.2

/-- Trimming leaves a text that neither starts nor ends with a blank, and its words. -/
theorem trim_spec {t : KString} (ht : ∀ c ∈ t, DimacsLine.Visible c ∨ DimacsLine.isBlank c) :
    (∀ c ∈ trim t, c ∈ t) ∧ words DimacsLine.isBlank (trim t) = words DimacsLine.isBlank t ∧
      ∀ h : trim t ≠ [], DimacsLine.isBlank ((trim t).head h) = false ∧
        DimacsLine.isBlank ((trim t).getLast h) = false := by
  have htrim : trim t = (t.dropWhile isWhitespace).rdropWhile isWhitespace := rfl
  have hblank : ∀ c ∈ t, isWhitespace c = DimacsLine.isBlank c :=
    fun c hc => isWhitespace_separates.eq_isBlank (ht c hc)
  have hsub : ∀ c ∈ t.dropWhile isWhitespace, c ∈ t :=
    fun c hc => (List.dropWhile_suffix _).subset hc
  have hpre : (t.dropWhile isWhitespace).rdropWhile isWhitespace <+: t.dropWhile isWhitespace :=
    List.rdropWhile_prefix _ _
  have hsub' : ∀ c ∈ trim t, c ∈ t := fun c hc => hsub c (hpre.subset (htrim ▸ hc))
  refine ⟨hsub', ?_, fun h => ⟨?_, ?_⟩⟩
  · rw [htrim, words_rdropWhile fun c hc h => (hblank c (hsub c hc)) ▸ h,
      words_dropWhile fun c hc h => (hblank c hc) ▸ h]
  · rw [← hblank _ (hsub' _ (List.head_mem h))]
    have hne : t.dropWhile isWhitespace ≠ [] := fun hnil => h (by rw [htrim, hnil]; rfl)
    have hhead : (trim t).head h = (t.dropWhile isWhitespace).head hne := hpre.head h
    rw [hhead]
    exact List.head_dropWhile_not isWhitespace hne
  · rw [← hblank _ (hsub' _ (List.getLast_mem h))]
    exact Bool.eq_false_iff.mpr (List.rdropWhile_last_not isWhitespace _ h)

/-- The parts of a line are its words; a line without words has one empty part. -/
theorem splitRuns_trim {t : KString}
    (ht : ∀ c ∈ t, DimacsLine.Visible c ∨ DimacsLine.isBlank c) :
    splitRuns isRegexSpace false (trim t) =
      if words DimacsLine.isBlank t = [] then [[]] else words DimacsLine.isBlank t := by
  obtain ⟨hsub, hwords, hends⟩ := trim_spec ht
  rw [splitRuns_congr false
    fun c hc => isRegexSpace_separates.eq_isBlank (ht c (hsub c hc))]
  by_cases h : trim t = []
  · rw [h] at hwords ⊢
    rw [← hwords]
    rfl
  · have hsplit := splitRuns_eq_words h (hends h).1 (hends h).2
    have hne : words DimacsLine.isBlank (trim t) ≠ [] := by
      rw [← hsplit]
      cases hc : trim t with
      | nil => exact absurd hc h
      | cons c s =>
        rw [splitRuns]
        split
        · exact List.cons_ne_nil _ _
        · split <;> exact List.cons_ne_nil _ _
    rw [hsplit, hwords, if_neg (hwords ▸ hne)]

/-- The first word of a comment. -/
theorem splitRuns_comment {sep : Char → Bool} (hblank : sep ' ' = true) (hsep : sep 'c' = false)
    {t : KString} (h : t = ['c'] ∨ ∃ s, t = 'c' :: ' ' :: s) :
    ∃ pieces, splitRuns sep false t = ['c'] :: pieces := by
  have hword : IsWord sep ['c'] := ⟨List.cons_ne_nil _ _, by simpa using hsep⟩
  rcases h with rfl | ⟨s, rfl⟩
  · exact ⟨[], splitRuns_of_forall false hword.2⟩
  · exact ⟨_, splitRuns_append hblank s false hword⟩

/-- A trimmed comment is still one. -/
theorem trim_comment {t : KString} (h : t = ['c'] ∨ ∃ s, t = 'c' :: ' ' :: s) :
    trim t = ['c'] ∨ ∃ s, trim t = 'c' :: ' ' :: s := by
  rcases h with rfl | ⟨s, rfl⟩
  · exact Or.inl rfl
  · have htrim : trim ('c' :: ' ' :: s) = ('c' :: ' ' :: s).rdropWhile isWhitespace := rfl
    have hpre : trim ('c' :: ' ' :: s) <+: 'c' :: ' ' :: s := htrim ▸ List.rdropWhile_prefix _ _
    have hne : trim ('c' :: ' ' :: s) ≠ [] := by
      rw [htrim, Ne, List.rdropWhile_eq_nil_iff]
      intro hall
      exact absurd (hall 'c' List.mem_cons_self) (by decide)
    generalize trim ('c' :: ' ' :: s) = t at hpre hne ⊢
    match t with
    | [] => exact absurd rfl hne
    | [c] => exact Or.inl (by rw [(List.cons_prefix_cons.mp hpre).1])
    | c :: d :: s' =>
      obtain ⟨rfl, hrest⟩ := List.cons_prefix_cons.mp hpre
      exact Or.inr ⟨s', by rw [(List.cons_prefix_cons.mp hrest).1]⟩

theorem DimacsLine.Spells.oneLine {t : KString} {line : DimacsLine} (h : line.Spells t) : OneLine t := by
  have hascii : (∀ c ∈ t, Visible c ∨ isBlank c) → OneLine t := by
    intro h c hc
    constructor <;> rintro rfl <;> exact absurd (h _ hc) (by decide)
  cases line with
  | comment => exact h.1
  | blank => exact hascii h.1
  | problem => exact hascii h.1
  | edge => exact hascii h.1

/-! ### The loader -/

/-- Ints of a pair of ids. -/
def natPair (p : ℕ × ℕ) : ℤ × ℤ := (p.1, p.2)

theorem DimacsFile.coePair_edges (file : DimacsFile) : file.edges.map coePair =
    ((file.rows.map Prod.snd).flatMap DimacsLine.edges).map natPair := by
  rw [DimacsFile.edges, List.map_map]
  exact List.attach_map_val (f := natPair)

theorem addInt_pred {k : ℕ} (h : 0 < k ∧ k < 2 ^ 31) : addInt k (-1) = (k - 1 : ℕ) := by
  rw [addInt, Int.bmod_eq_of_le (by omega) (by omega)]
  omega

/-- A line sets the count or adds its edge. -/
theorem dimacsLine_spells {t : KString} {line : DimacsLine} (h : line.Spells t) (hline : line.Valid)
    (n : ℕ) (es : List (ℤ × ℤ)) :
    dimacsLine (n, es) t = .ok (line.count n, es ++ line.edges.map natPair) := by
  cases line with
  | comment =>
    obtain ⟨pieces, hpieces⟩ := splitRuns_comment (show isRegexSpace ' ' = true by decide) (by decide)
      (trim_comment h.2)
    rw [dimacsLine, hpieces]
    change Except.ok ((n : ℤ), es) = .ok ((n : ℤ), es ++ [])
    rw [List.append_nil]
  | blank =>
    have hparts := splitRuns_trim h.1
    rw [h.2] at hparts
    rw [dimacsLine, hparts]
    change Except.ok ((n : ℤ), es) = .ok ((n : ℤ), es ++ [])
    rw [List.append_nil]
  | problem format k m =>
    have hparts : splitRuns isRegexSpace false (trim t) = [['p'], format, digits k, digits m] := by
      rw [splitRuns_trim h.1, h.2]
      rfl
    rw [dimacsLine, hparts]
    change (toInt (digits k) >>= fun n => pure (n, es)) = _
    rw [toInt_digits hline]
    change Except.ok ((k : ℤ), es) = .ok ((k : ℤ), es ++ [])
    rw [List.append_nil]
  | edge u v =>
    have hparts : splitRuns isRegexSpace false (trim t) = [['e'], digits u, digits v] := by
      rw [splitRuns_trim h.1, h.2]
      rfl
    rw [dimacsLine, hparts]
    change (toInt (digits u) >>= fun u => toInt (digits v) >>= fun v =>
      pure ((n : ℤ), es ++ [(addInt u (-1), addInt v (-1))])) = _
    rw [toInt_digits hline.1.2, toInt_digits hline.2.2]
    change Except.ok ((n : ℤ), es ++ [(addInt u (-1), addInt v (-1))]) = _
    rw [addInt_pred hline.1, addInt_pred hline.2]
    rfl

/-- A reader that takes the lines so takes the file so. -/
theorem DimacsFile.foldlM_rows {step : ℤ × List (ℤ × ℤ) → KString → Except String (ℤ × List (ℤ × ℤ))}
    (hstep : ∀ {t : KString} {line : DimacsLine}, line.Spells t → line.Valid → ∀ (n : ℕ) es,
      step (n, es) t = .ok (line.count n, es ++ line.edges.map natPair)) (file : DimacsFile) :
    (file.rows.map Prod.fst).foldlM step (0, []) = .ok ((file.n : ℤ), file.edges.map coePair) := by
  have hrows : ∀ (rows : List (KString × DimacsLine)) (n : ℕ) (es : List (ℤ × ℤ)),
      (∀ row ∈ rows, row.2.Spells row.1 ∧ row.2.Valid) → (rows.map Prod.fst).foldlM step (n, es) =
        .ok ((((rows.map Prod.snd).foldl DimacsLine.count n : ℕ) : ℤ),
          es ++ ((rows.map Prod.snd).flatMap DimacsLine.edges).map natPair) := by
    intro rows
    induction rows with
    | nil => intro n es _; simp; rfl
    | cons row rows ih =>
      intro n es h
      obtain ⟨⟨hspells, hvalid⟩, hrows⟩ := List.forall_mem_cons.mp h
      rw [List.map_cons, List.foldlM_cons, hstep hspells hvalid]
      refine (ih _ _ hrows).trans ?_
      rw [List.append_assoc, List.map_cons, List.flatMap_cons, List.map_append]
      rfl
  rw [file.coePair_edges]
  exact hrows file.rows 0 [] file.spelled

theorem DimacsFile.readLines_text (file : DimacsFile) :
    readLines file.text = file.rows.map Prod.fst := by
  have := readLines_terminated fun t ht => by
    obtain ⟨row, hrow, rfl⟩ := List.mem_map.mp ht
    exact (file.spelled row hrow).1.oneLine
  rwa [List.flatMap_map] at this

/-- `loadDimacs` builds the graph of the edges of the file. -/
theorem loadDimacs_file (file : DimacsFile) :
    loadDimacs file.text = .ok (ofBuckets file.n file.edges) := by
  rw [loadDimacs, file.readLines_text, file.foldlM_rows dimacsLine_spells]
  exact buildFromEdges_coe file.edges

end Dialysis.GraphIO
