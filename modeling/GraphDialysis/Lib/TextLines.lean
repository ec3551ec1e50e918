import Mathlib.Data.List.DropRight

/-! Text files of words and numbers. `readLines` cuts a text into lines, `splitRuns` a line at its runs of
    separators, `readNat` reads decimal digits. Each has the lemma that says what it makes of a text
    put together from lines, words and numbers (`readLines_joined`, `splitRuns_words`,
    `readNat_toDigits`). -/

namespace Lib

/-- The lines of a text. A line ends at a line feed, at a carriage return or at the two together; what
    follows the last of them is a line only if it is not empty. -/
def readLines : List Char → List (List Char)
  | [] => []
  | '\n' :: s => [] :: readLines s
  | '\r' :: '\n' :: s => [] :: readLines s
  | '\r' :: s => [] :: readLines s
  | c :: s =>
    match readLines s with
    | [] => [[c]]
    | line :: lines => (c :: line) :: lines

/-- What a line may hold. -/
def OneLine (line : List Char) : Prop := ∀ c ∈ line, c ≠ '\n' ∧ c ≠ '\r'

instance (line : List Char) : Decidable (OneLine line) :=
  show Decidable (∀ c ∈ line, c ≠ '\n' ∧ c ≠ '\r') from List.decidableBAll _ line

theorem readLines_append : ∀ {line : List Char} (s : List Char), OneLine line →
    readLines (line ++ '\n' :: s) = line :: readLines s
  | [], s, _ => by
    rw [List.nil_append, readLines]
  | c :: line, s, h => by
    obtain ⟨hn, hr⟩ := h c List.mem_cons_self
    have ih := readLines_append s fun d hd => h d (List.mem_cons_of_mem _ hd)
    rw [List.cons_append, readLines.eq_5 _ _ hn (fun _ h _ => hr h) hr, ih]

/-- What follows the last line feed is read as it stands. -/
theorem readLines_lines_append (s : List Char) : ∀ {lines : List (List Char)},
    (∀ line ∈ lines, OneLine line) →
      readLines (lines.flatMap (· ++ ['\n']) ++ s) = lines ++ readLines s
  | [], _ => rfl
  | line :: lines, h => by
    obtain ⟨hline, hlines⟩ := List.forall_mem_cons.mp h
    rw [List.flatMap_cons, List.append_assoc, List.append_assoc, List.singleton_append,
      readLines_append _ hline, readLines_lines_append s hlines, List.cons_append]

theorem readLines_terminated {lines : List (List Char)} (h : ∀ line ∈ lines, OneLine line) :
    readLines (lines.flatMap (· ++ ['\n'])) = lines := by
  have := readLines_lines_append [] h
  rwa [List.append_nil, readLines, List.append_nil] at this

/-- A last line without a line feed. -/
theorem readLines_oneLine : ∀ {line : List Char}, line ≠ [] → OneLine line → readLines line = [line]
  | [], h, _ => absurd rfl h
  | [c], _, h => by
    obtain ⟨hn, hr⟩ := h c List.mem_cons_self
    rw [readLines.eq_5 _ _ hn (fun _ h _ => hr h) hr, readLines]
  | c :: d :: line, _, h => by
    obtain ⟨hn, hr⟩ := h c List.mem_cons_self
    have ih := readLines_oneLine (List.cons_ne_nil d line) fun e he => h e (List.mem_cons_of_mem _ he)
    rw [readLines.eq_5 _ _ hn (fun _ h _ => hr h) hr, ih]

theorem readLines_joined : ∀ {lines : List (List Char)}, lines ≠ [] → (∀ line ∈ lines, OneLine line) →
    readLines (['\n'].intercalate lines ++ ['\n']) = lines
  | [], h, _ => absurd rfl h
  | [line], _, h => by
    rw [List.intercalate_singleton, readLines_append _ (h line List.mem_cons_self), readLines]
  | line :: line' :: lines, _, h => by
    rw [List.intercalate_cons_cons, List.append_assoc, List.append_assoc, List.singleton_append,
      readLines_append _ (h line List.mem_cons_self),
      readLines_joined (List.cons_ne_nil _ _) fun l hl => h l (List.mem_cons_of_mem _ hl)]

/-! ### Words -/

section
variable (sep : Char → Bool)

/-- The pieces between the runs of separators, the empty ones at the ends among them. The flag says
    that a separator came just before. -/
def splitRuns : Bool → List Char → List (List Char)
  | _, [] => [[]]
  | inRun, c :: s =>
    if sep c then if inRun then splitRuns true s else [] :: splitRuns true s
    else
      match splitRuns false s with
      | [] => [[c]]
      | piece :: pieces => (c :: piece) :: pieces

variable {sep}

/-- A word has no separators and is not empty. -/
def IsWord (sep : Char → Bool) (w : List Char) : Prop := w ≠ [] ∧ ∀ c ∈ w, sep c = false

theorem splitRuns_of_forall : ∀ {w : List Char} (inRun : Bool), (∀ c ∈ w, sep c = false) →
    splitRuns sep inRun w = [w]
  | [], _, _ => rfl
  | c :: w, inRun, h => by
    rw [splitRuns, if_neg (by simp [h c List.mem_cons_self]),
      splitRuns_of_forall false fun d hd => h d (List.mem_cons_of_mem _ hd)]

theorem splitRuns_congr {sep' : Char → Bool} : ∀ {s : List Char} (inRun : Bool),
    (∀ c ∈ s, sep c = sep' c) → splitRuns sep inRun s = splitRuns sep' inRun s
  | [], _, _ => rfl
  | c :: s, inRun, h => by
    have hs := fun b => splitRuns_congr (s := s) b fun d hd => h d (List.mem_cons_of_mem _ hd)
    rw [splitRuns, splitRuns, h c List.mem_cons_self, hs true, hs false]

theorem splitRuns_append {d : Char} (hd : sep d = true) (s : List Char) : ∀ {w : List Char}
    (inRun : Bool), IsWord sep w → splitRuns sep inRun (w ++ d :: s) = w :: splitRuns sep true s
  | [], _, h => absurd rfl h.1
  | [c], inRun, h => by
    rw [List.singleton_append, splitRuns, if_neg (by simp [h.2 c List.mem_cons_self]), splitRuns,
      if_pos hd, if_neg (by decide)]
  | c :: c' :: w, inRun, h => by
    have ih := splitRuns_append hd s (w := c' :: w) false
      ⟨List.cons_ne_nil _ _, fun e he => h.2 e (List.mem_cons_of_mem _ he)⟩
    rw [List.cons_append, splitRuns, if_neg (by simp [h.2 c List.mem_cons_self]), ih]

/-- Words with one separator between two of them are read back. -/
theorem splitRuns_words {d : Char} (hd : sep d = true) : ∀ {w : List Char} {ws : List (List Char)}
    (inRun : Bool), IsWord sep w → (∀ x ∈ ws, IsWord sep x) →
      splitRuns sep inRun (w ++ ws.flatMap (d :: ·)) = w :: ws
  | w, [], inRun, hw, _ => by
    rw [List.flatMap_nil, List.append_nil]
    exact splitRuns_of_forall inRun hw.2
  | w, x :: ws, inRun, hw, hws => by
    rw [List.flatMap_cons, List.cons_append, splitRuns_append hd _ inRun hw,
      splitRuns_words hd true (hws x List.mem_cons_self) fun y hy => hws y (List.mem_cons_of_mem _ hy)]

/-- The words of a text. -/
def words (sep : Char → Bool) (s : List Char) : List (List Char) :=
  (splitRuns sep false s).filter fun piece => !piece.isEmpty

/-- A separator in front is no word. -/
theorem words_cons {d : Char} (hd : sep d = true) (s : List Char) :
    words sep (d :: s) = words sep s := by
  rw [words, splitRuns, if_pos hd, if_neg (by decide), words, List.filter_cons_of_neg (by simp)]
  cases s with
  | nil => rfl
  | cons c s =>
    rw [splitRuns, splitRuns]
    by_cases hc : sep c = true
    · simp [hc]
    · simp [hc]

theorem splitRuns_concat {d : Char} (hd : sep d = true) : ∀ (s : List Char) (inRun : Bool),
    ∃ piece pieces pieces', splitRuns sep inRun (s ++ [d]) = piece :: pieces ∧
      splitRuns sep inRun s = piece :: pieces' ∧
        pieces.filter (fun w => !w.isEmpty) = pieces'.filter fun w => !w.isEmpty
  | [], inRun => by
    cases inRun with
    | false => exact ⟨[], [[]], [], by simp [splitRuns, hd], rfl, rfl⟩
    | true => exact ⟨[], [], [], by simp [splitRuns, hd], rfl, rfl⟩
  | c :: s, inRun => by
    rw [List.cons_append, splitRuns, splitRuns]
    by_cases hc : sep c = true
    · rw [if_pos hc, if_pos hc]
      obtain ⟨piece, pieces, pieces', h, h', hfilter⟩ := splitRuns_concat hd s true
      cases inRun with
      | false =>
        refine ⟨[], _, _, rfl, rfl, ?_⟩
        rw [h, h', List.filter_cons, List.filter_cons, hfilter]
      | true => exact ⟨piece, pieces, pieces', h, h', hfilter⟩
    · rw [if_neg hc, if_neg hc]
      obtain ⟨piece, pieces, pieces', h, h', hfilter⟩ := splitRuns_concat hd s false
      exact ⟨c :: piece, pieces, pieces', by rw [h], by rw [h'], hfilter⟩

/-- Nor is one at the end. -/
theorem words_concat {d : Char} (hd : sep d = true) (s : List Char) :
    words sep (s ++ [d]) = words sep s := by
  obtain ⟨piece, pieces, pieces', h, h', hfilter⟩ := splitRuns_concat hd s false
  rw [words, words, h, h', List.filter_cons, List.filter_cons, hfilter]

theorem words_dropWhile {p : Char → Bool} : ∀ {s : List Char}, (∀ c ∈ s, p c = true → sep c = true) →
    words sep (s.dropWhile p) = words sep s
  | [], _ => rfl
  | c :: s, h => by
    rw [List.dropWhile_cons]
    split
    · rename_i hc
      rw [words_dropWhile fun d hd => h d (List.mem_cons_of_mem _ hd),
        words_cons (h c List.mem_cons_self hc)]
    · rfl

theorem words_rdropWhile {p : Char → Bool} {s : List Char} (h : ∀ c ∈ s, p c = true → sep c = true) :
    words sep (s.rdropWhile p) = words sep s := by
  induction s using List.reverseRecOn with
  | nil => rfl
  | append_singleton s c ih =>
    rw [List.rdropWhile_concat]
    split
    · rename_i hc
      rw [ih fun d hd => h d (List.mem_append_left _ hd), words_concat (h c (by simp) hc)]
    · rfl

/-- Between two characters that are no separators no piece is empty. -/
theorem ne_nil_of_mem_splitRuns : ∀ {s : List Char} {inRun : Bool} (hs : s ≠ []),
    (inRun = false → sep (s.head hs) = false) → sep (s.getLast hs) = false →
      ∀ piece ∈ splitRuns sep inRun s, piece ≠ []
  | [c], inRun, _, _, hlast => by
    have hc : sep c = false := hlast
    simp [splitRuns, hc]
  | c :: c' :: s, inRun, _, hhead, hlast => by
    have hlast' : sep ((c' :: s).getLast (List.cons_ne_nil _ _)) = false := by
      rwa [List.getLast_cons (List.cons_ne_nil _ _)] at hlast
    rw [splitRuns]
    cases hc : sep c with
    | true =>
      have hrun : inRun = true := by
        cases inRun with
        | true => rfl
        | false => exact absurd (hc.symm.trans (hhead rfl)) (by decide)
      rw [if_pos rfl, if_pos hrun]
      exact ne_nil_of_mem_splitRuns (List.cons_ne_nil _ _) (fun h => by cases h) hlast'
    | false =>
      rw [if_neg (by decide)]
      -- the first piece gets the letter, the others are those of the rest
      have htail : ∀ piece ∈ (splitRuns sep false (c' :: s)).tail, piece ≠ [] := by
        cases hc' : sep c' with
        | false =>
          exact fun piece hp => ne_nil_of_mem_splitRuns (List.cons_ne_nil _ _) (fun _ => hc') hlast'
            piece (List.mem_of_mem_tail hp)
        | true =>
          have hs : s ≠ [] := by
            rintro rfl
            exact absurd (hc'.symm.trans hlast') (by decide)
          rw [List.getLast_cons hs] at hlast'
          rw [splitRuns, if_pos hc', if_neg (by decide), List.tail_cons]
          exact ne_nil_of_mem_splitRuns hs (fun h => by cases h) hlast'
      cases hsplit : splitRuns sep false (c' :: s) with
      | nil => simp
      | cons piece pieces =>
        rw [hsplit, List.tail_cons] at htail
        exact List.forall_mem_cons.mpr ⟨List.cons_ne_nil _ _, htail⟩

/-- A text that neither starts nor ends with a separator is cut into its words. -/
theorem splitRuns_eq_words {s : List Char} (hs : s ≠ []) (hhead : sep (s.head hs) = false)
    (hlast : sep (s.getLast hs) = false) : splitRuns sep false s = words sep s := by
  refine (List.filter_eq_self.mpr fun piece hp => ?_).symm
  simpa using ne_nil_of_mem_splitRuns hs (fun _ => hhead) hlast piece hp

end

/-! ### Numbers -/

/-- A number in decimal digits. -/
def readNat (s : List Char) : Option ℕ :=
  if s ≠ [] ∧ s.all Char.isDigit then some (Nat.ofDigitChars 10 s 0) else none

theorem readNat_toDigits (k : ℕ) : readNat (Nat.toDigits 10 k) = some k := by
  have hall : (Nat.toDigits 10 k).all Char.isDigit = true := List.all_eq_true.mpr fun c hc =>
    Nat.isDigit_of_mem_toDigits (by decide) (by decide) hc
  rw [readNat, if_pos ⟨Nat.toDigits_ne_nil, hall⟩, Nat.ofDigitChars_ten_toDigits]

end Lib
