import GraphDialysis.Benchmark.PerQuery
import GraphDialysis.Lib.PrefixCode
import GraphDialysis.Sat.ParallelDriver
import Mathlib.Data.List.Forall2

/-! `merge_ground_truth.py`: join the runner's rows with the rows of `ground_truth.py` and recompute the
    status. A row is modelled by the columns the script looks into, as text; a blank is the empty
    text. The runner writes rows in several places, and what a blank means depends on the place.
    `mergeGroundTruth_notStronger`: a merged status claims no more than the run showed, except where
    the runner left its number of colour classes in the column of recovered orbits. -/

namespace Dialysis.Benchmark
open Lib Dialysis.Sat

/-! ### Python's numbers -/

/-- `str.isspace` for one character. -/
def isspace (c : Char) : Bool :=
  let u := c.toNat
  (9 ≤ u && u ≤ 13) || (28 ≤ u && u ≤ 32) || u == 0x85 || u == 0xA0 || u == 0x1680 ||
    (0x2000 ≤ u && u ≤ 0x200A) || u == 0x2028 || u == 0x2029 || u == 0x202F || u == 0x205F ||
    u == 0x3000

/-- `str.strip`. -/
def strip (cs : List Char) : List Char :=
  ((cs.dropWhile isspace).reverse.dropWhile isspace).reverse

/-- The rest of a numeral, after a digit; one underscore may stand between two digits. -/
def numeralFrom (value : ℕ) : List Char → Option ℕ
  | [] => some value
  | c :: cs =>
    if c.isDigit then numeralFrom (10 * value + (c.toNat - '0'.toNat)) cs
    else if c = '_' then
      match cs with
      | [] => none
      | d :: ds =>
        if d.isDigit then numeralFrom (10 * value + (d.toNat - '0'.toNat)) ds else none
    else none

def numeral : List Char → Option ℕ
  | [] => none
  | c :: cs => if c.isDigit then numeralFrom (c.toNat - '0'.toNat) cs else none

/-- `int(s)`, the digits of other scripts aside; `none` is a ValueError. -/
def pythonInt (s : String) : Option ℤ :=
  match strip s.toList with
  | '-' :: cs => (numeral cs).map fun k => -Int.ofNat k
  | '+' :: cs => (numeral cs).map Int.ofNat
  | cs => (numeral cs).map Int.ofNat

/-- `str.isdigit`. -/
def isdigit (s : String) : Bool := !s.toList.isEmpty && s.toList.all Char.isDigit

theorem not_isspace_of_isDigit {c : Char} (h : c.isDigit = true) : isspace c = false := by
  simp only [Char.isDigit, Bool.and_eq_true, decide_eq_true_eq, ge_iff_le, UInt32.le_iff_toNat_le] at h
  change 48 ≤ c.toNat ∧ c.toNat ≤ 57 at h
  simp [isspace]
  omega

theorem strip_digits {cs : List Char} (h : ∀ c ∈ cs, c.isDigit = true) : strip cs = cs := by
  have hdrop : ∀ l : List Char, (∀ c ∈ l, c.isDigit = true) → l.dropWhile isspace = l := by
    intro l hl
    cases l with
    | nil => rfl
    | cons c l =>
      rw [List.dropWhile_cons, not_isspace_of_isDigit (hl c (by simp))]
      rfl
  rw [strip, hdrop cs h, hdrop cs.reverse fun c hc => h c (List.mem_reverse.mp hc), List.reverse_reverse]

theorem numeralFrom_digits : ∀ (cs : List Char) (value : ℕ), (∀ c ∈ cs, c.isDigit = true) →
    numeralFrom value cs = some (Nat.ofDigitChars 10 cs value)
  | [], _, _ => rfl
  | c :: cs, value, h => by
    rw [numeralFrom.eq_def]
    dsimp only
    rw [if_pos (h c (by simp)),
      numeralFrom_digits cs _ fun d hd => h d (List.mem_cons_of_mem _ hd), Nat.ofDigitChars_cons]

theorem numeral_toDigits (k : ℕ) : numeral (Nat.toDigits 10 k) = some k := by
  have hdigits : ∀ c ∈ Nat.toDigits 10 k, c.isDigit = true := fun c hc =>
    Nat.isDigit_of_mem_toDigits (by decide) (by decide) hc
  have hvalue := Nat.ofDigitChars_ten_toDigits (n := k)
  cases hcs : Nat.toDigits 10 k with
  | nil => exact absurd hcs Nat.toDigits_ne_nil
  | cons c cs =>
    rw [hcs] at hdigits hvalue
    rw [numeral, if_pos (hdigits c (by simp)),
      numeralFrom_digits cs _ fun d hd => hdigits d (List.mem_cons_of_mem _ hd), ← hvalue,
      Nat.ofDigitChars_cons]
    simp

theorem toList_toString (k : ℕ) : (toString k).toList = Nat.toDigits 10 k := Nat.toList_repr

/-- What the runner prints for a counter is read back. -/
theorem pythonInt_toString (k : ℕ) : pythonInt (toString k) = some (k : ℤ) := by
  have hdigits : ∀ c ∈ Nat.toDigits 10 k, c.isDigit = true := fun c hc =>
    Nat.isDigit_of_mem_toDigits (by decide) (by decide) hc
  rw [pythonInt, toList_toString, strip_digits hdigits]
  split
  · next cs hcs => exact absurd (hdigits '-' (hcs ▸ List.mem_cons_self)) (by decide)
  · next cs hcs => exact absurd (hdigits '+' (hcs ▸ List.mem_cons_self)) (by decide)
  · rw [numeral_toDigits]
    rfl

theorem isdigit_toString (k : ℕ) : isdigit (toString k) = true := by
  rw [isdigit, toList_toString, Bool.and_eq_true, List.all_eq_true]
  refine ⟨?_, fun c hc => Nat.isDigit_of_mem_toDigits (by decide) (by decide) hc⟩
  simp [Nat.toDigits_ne_nil]

theorem toString_ne_blank (k : ℕ) : toString k ≠ "" := fun h => by
  have := toList_toString k
  rw [h] at this
  exact Nat.toDigits_ne_nil this.symm

theorem toString_eq_zero {k : ℕ} : toString k = "0" ↔ k = 0 := by
  refine ⟨fun h => ?_, fun h => by rw [h]; rfl⟩
  refine toDigits_inj ?_
  rw [← toList_toString, ← toList_toString, h]
  rfl

/-! ### The script -/

/-- The columns of a benchmark row that the script reads or writes. -/
structure Row where
  «instance» : String
  unknown : String
  recoveredOrbits : String
  trueOrbits : String
  gtSource : String
  gtMs : String
  gtTimedOut : String
  status : String

/-- The columns of a ground-truth row that the script reads; older files have no `gt_subdivided`. -/
structure GroundTruthRow where
  «instance» : String
  trueOrbits : String
  gtMs : String
  gtTimedOut : String
  gtSubdivided : Option String

/-- The loop's variables: the rows so far, the counters and what was printed. -/
structure Merged where
  rows : List Row
  matched : ℕ
  disagreements : ℕ
  notComparable : ℕ
  printed : List String

/-- `gt_rows.get`: a dict keeps the last row of an instance. -/
def gtRow (gtRows : List GroundTruthRow) (path : String) : Option GroundTruthRow :=
  gtRows.reverse.find? fun gt => gt.instance = path

/-- `RESET_BEFORE_MERGE`. -/
def Row.reset (row : Row) : Row := { row with gtMs := "", gtTimedOut := "" }

def healStatus (row : Row) : Row :=
  if row.unknown = "" then row
  else { row with status := if row.unknown = "0" then "CERTIFIED" else "PARTIAL" }

def Merged.write (m : Merged) (row : Row) : Merged := { m with rows := m.rows ++ [row] }

def valueError (s : String) : String := s!"invalid literal for int() with base 10: '{s}'"

/-- The row's status once the true count is known, and whether it disagrees. -/
def compareOrbits (row : Row) (trueOrbits : ℤ) (m : Merged) : Except String Merged :=
  if row.unknown ≠ "" ∧ row.unknown ≠ "0" then .ok (m.write { row with status := "PARTIAL" })
  else if row.recoveredOrbits ≠ "" ∧ isdigit row.recoveredOrbits then
    match pythonInt row.recoveredOrbits with
    | none => .error (valueError row.recoveredOrbits)
    | some recovered =>
      if recovered = trueOrbits then .ok (m.write { row with status := "EXACT" })
      else .ok { m.write { row with status := "PARTIAL" } with
        disagreements := m.disagreements + 1
        printed := m.printed ++
          [s!"DISAGREEMENT: {row.instance} recovered={recovered} true_orbits={trueOrbits}"] }
  else .ok (m.write row)

/-- One pass of the loop over the benchmark rows. -/
def mergeRow (gtRows : List GroundTruthRow) (m : Merged) (row : Row) : Except String Merged :=
  match gtRow gtRows row.instance with
  | none => .ok (m.write (healStatus row))
  | some gt =>
    let row := { row with gtMs := gt.gtMs, gtTimedOut := gt.gtTimedOut }
    if gt.gtSubdivided = some "true" then
      .ok { m.write (healStatus row) with notComparable := m.notComparable + 1 }
    else if gt.gtTimedOut ≠ "false" ∨ gt.trueOrbits = "" then .ok (m.write (healStatus row))
    else
      match pythonInt gt.trueOrbits with
      | none => .error (valueError gt.trueOrbits)
      | some trueOrbits =>
        compareOrbits { row with trueOrbits := toString trueOrbits, gtSource := "traces" } trueOrbits
          { m with matched := m.matched + 1 }

/-- `merge_ground_truth.py`. -/
def mergeGroundTruth (gtRows : List GroundTruthRow) (rows : List Row) : Except String Merged :=
  (rows.map Row.reset).foldlM (mergeRow gtRows) ⟨[], 0, 0, 0, []⟩

/-! ### The runner's rows -/

/-- A row of a completed solve phase. -/
def completedRow (path : String) (unknown recoveredOrbits : ℕ) : Row :=
  ⟨path, toString unknown, toString recoveredOrbits, "", "", "", "", (solveStatus unknown).text⟩

/-- A row of an instance that was not solved; its counters are blank. -/
def unsolvedRow (path recoveredOrbits status : String) : Row :=
  ⟨path, "", recoveredOrbits, "", "", "", "", status⟩

def perQueryRow {n : ℕ} (path : String) (t : PerQueryTotals n) : Row :=
  completedRow path t.totalUnknown t.orbits.length

def globalRow {n : ℕ} (path : String) (result : ParallelDriveResult n) : Row :=
  completedRow path result.unknown result.orbits.length

def cryptoMiniSatRow {n : ℕ} (path : String) (result : OrbitDriveResult n) : Row :=
  completedRow path result.queriesUnknown result.orbits.length

/-- The recovered orbits of a skipped instance are its colour classes. -/
def skippedTooLargeRow {n : ℕ} (path : String) (activeCells : List (List (Fin n))) : Row :=
  unsolvedRow path (toString activeCells.length) "SKIPPED_TOO_LARGE"

/-- The three timeouts differ in columns that the script does not read. -/
def instanceTimeoutRow (path : String) : Row := unsolvedRow path "" "INSTANCE_TIMEOUT"

/-- `replace(',', ';').replace('\n', ' ')`. -/
def csvSafe (c : Char) : Char := if c = ',' then ';' else if c = '\n' then ' ' else c

def errorRow (path simpleName message : String) : Row :=
  unsolvedRow path "" (s!"ERROR: {simpleName}: {message}".map csvSafe)

/-- Where the runner's row comes from. -/
inductive Written
  | perQuery {n : ℕ} (t : PerQueryTotals n)
  | global {n : ℕ} (result : ParallelDriveResult n)
  | cryptoMiniSat {n : ℕ} (result : OrbitDriveResult n)
  | skippedTooLarge {n : ℕ} (activeCells : List (List (Fin n)))
  | instanceTimeout
  | error (simpleName message : String)

def Written.row (path : String) : Written → Row
  | perQuery t => perQueryRow path t
  | global result => globalRow path result
  | cryptoMiniSat result => cryptoMiniSatRow path result
  | skippedTooLarge activeCells => skippedTooLargeRow path activeCells
  | instanceTimeout => instanceTimeoutRow path
  | error simpleName message => errorRow path simpleName message

/-- The unknown queries and the recovered orbits of a completed run. -/
def Written.completed : Written → Option (ℕ × ℕ)
  | perQuery t => some (t.totalUnknown, t.orbits.length)
  | global result => some (result.unknown, result.orbits.length)
  | cryptoMiniSat result => some (result.queriesUnknown, result.orbits.length)
  | _ => none

/-! ### What a merged status claims -/

/-- The count that the script compares with, if the instance has one. -/
def usableTrueOrbits (gtRows : List GroundTruthRow) (path : String) : Option ℤ :=
  (gtRow gtRows path).bind fun gt =>
    if gt.gtSubdivided = some "true" ∨ gt.gtTimedOut ≠ "false" ∨ gt.trueOrbits = "" then none
    else pythonInt gt.trueOrbits

/-- The status that a row ends with. -/
def mergedStatus (row : Row) : Option ℤ → String
  | none => (healStatus row).status
  | some trueOrbits =>
    if row.unknown ≠ "" ∧ row.unknown ≠ "0" then "PARTIAL"
    else if row.recoveredOrbits ≠ "" ∧ isdigit row.recoveredOrbits then
      if pythonInt row.recoveredOrbits = some trueOrbits then "EXACT" else "PARTIAL"
    else row.status

/-- EXACT needs a completed run without unknown queries that found the true count; any other run than
    a completed one without unknown queries is neither EXACT nor CERTIFIED. -/
structure NotStronger (w : Written) (trueOrbits : Option ℤ) (status : String) : Prop where
  exact : status = "EXACT" →
    ∃ recovered : ℕ, w.completed = some (0, recovered) ∧ trueOrbits = some (recovered : ℤ)
  unproved : (∀ recovered, w.completed ≠ some (0, recovered)) →
    status ≠ "EXACT" ∧ status ≠ "CERTIFIED"

/-- The instance was skipped and has as many colour classes as orbits. -/
def Written.SkippedAtCount : Written → Option ℤ → Prop
  | skippedTooLarge activeCells, trueOrbits => trueOrbits = some (activeCells.length : ℤ)
  | _, _ => False

theorem healStatus_instance (row : Row) (ms timedOut : String) :
    (healStatus { row with gtMs := ms, gtTimedOut := timedOut }).status = (healStatus row).status := by
  simp only [healStatus]
  split <;> rfl

theorem compareOrbits_spec {row : Row} {trueOrbits : ℤ} {m m' : Merged}
    (h : compareOrbits row trueOrbits m = .ok m') :
    ∃ row', m'.rows = m.rows ++ [row'] ∧ row'.status = mergedStatus row (some trueOrbits) := by
  rw [compareOrbits] at h
  rw [mergedStatus]
  split at h
  · next hu =>
    cases h
    exact ⟨_, rfl, (if_pos hu).symm⟩
  · next hu =>
    rw [if_neg hu]
    split at h
    · next hd =>
      rw [if_pos hd]
      split at h
      · cases h
      · next recovered hr =>
        rw [hr]
        split at h
        · next heq =>
          cases h
          exact ⟨_, rfl, (if_pos (congrArg some heq)).symm⟩
        · next hne =>
          cases h
          exact ⟨_, rfl, (if_neg fun he => hne (Option.some.inj he)).symm⟩
    · next hd =>
      cases h
      exact ⟨_, rfl, (if_neg hd).symm⟩

/-- One pass writes one row. -/
theorem mergeRow_spec {gtRows : List GroundTruthRow} {m m' : Merged} {row : Row}
    (h : mergeRow gtRows m row = .ok m') : ∃ row', m'.rows = m.rows ++ [row'] ∧
      row'.status = mergedStatus row (usableTrueOrbits gtRows row.instance) := by
  rw [mergeRow] at h
  rw [usableTrueOrbits]
  cases hgt : gtRow gtRows row.instance with
  | none =>
    rw [hgt] at h
    cases h
    exact ⟨_, rfl, rfl⟩
  | some gt =>
    rw [hgt] at h
    dsimp only at h
    rw [Option.bind_some]
    split at h
    · next hsub =>
      cases h
      rw [if_pos (Or.inl hsub)]
      exact ⟨_, rfl, healStatus_instance _ _ _⟩
    · next hsub =>
      split at h
      · next hout =>
        cases h
        rw [if_pos (Or.inr hout)]
        exact ⟨_, rfl, healStatus_instance _ _ _⟩
      · next hout =>
        rw [if_neg (not_or.mpr ⟨hsub, hout⟩)]
        split at h
        · cases h
        · next trueOrbits ht =>
          rw [ht]
          obtain ⟨row', hrows, hstatus⟩ := compareOrbits_spec h
          exact ⟨row', hrows, hstatus⟩

theorem mergedStatus_completed (path : String) (unknown recovered : ℕ) (trueOrbits : Option ℤ) :
    mergedStatus (completedRow path unknown recovered) trueOrbits =
      if unknown ≠ 0 then "PARTIAL"
      else if trueOrbits = none then "CERTIFIED"
      else if some (recovered : ℤ) = trueOrbits then "EXACT" else "PARTIAL" := by
  cases trueOrbits with
  | none =>
    simp only [mergedStatus, healStatus, completedRow, toString_ne_blank, toString_eq_zero, if_false,
      if_true, ite_not]
  | some t =>
    simp only [mergedStatus, completedRow, toString_ne_blank, toString_eq_zero, isdigit_toString,
      pythonInt_toString, ne_eq, not_false_eq_true, true_and, if_true, reduceCtorEq, if_false]

theorem mergedStatus_blank (path status : String) (trueOrbits : Option ℤ) :
    mergedStatus (unsolvedRow path "" status) trueOrbits = status := by
  cases trueOrbits <;> rfl

theorem mergedStatus_unsolved (path status : String) (recovered : ℕ) (trueOrbits : Option ℤ) :
    mergedStatus (unsolvedRow path (toString recovered) status) trueOrbits =
      if trueOrbits = none then status
      else if some (recovered : ℤ) = trueOrbits then "EXACT" else "PARTIAL" := by
  cases trueOrbits with
  | none => rfl
  | some t =>
    simp only [mergedStatus, unsolvedRow, toString_ne_blank, isdigit_toString, pythonInt_toString,
      ne_eq, not_true_eq_false, false_and, not_false_eq_true, true_and, if_true, if_false,
      reduceCtorEq]

/-- An exception's name and message do not make a status. -/
theorem errorStatus_ne {simpleName message status : String} (hs : status.toList[1]? ≠ some 'R') :
    s!"ERROR: {simpleName}: {message}".map csvSafe ≠ status := by
  rintro rfl
  refine hs ?_
  simp [String.toList_map, toString, csvSafe]

theorem solved_notStronger {w : Written} {path : String} {unknown recovered : ℕ}
    (hw : w.completed = some (unknown, recovered)) (trueOrbits : Option ℤ) :
    NotStronger w trueOrbits (mergedStatus (completedRow path unknown recovered) trueOrbits) := by
  rw [mergedStatus_completed]
  by_cases hu : unknown = 0
  · rw [if_neg (not_not.mpr hu)]
    refine ⟨fun he => ⟨recovered, hu ▸ hw, ?_⟩, fun hnot => absurd (hu ▸ hw) (hnot recovered)⟩
    by_contra hne
    rw [if_neg (Ne.symm hne)] at he
    split at he <;> exact absurd he (by decide)
  · rw [if_pos hu]
    exact ⟨fun he => absurd he (by decide), fun _ => by decide⟩

theorem unsolved_notStronger {w : Written} {status : String} (hexact : status ≠ "EXACT")
    (hcert : status ≠ "CERTIFIED") (trueOrbits : Option ℤ) : NotStronger w trueOrbits status :=
  ⟨fun he => absurd he hexact, fun _ => ⟨hexact, hcert⟩⟩

/-- A row of the runner keeps within what its run showed, unless it was skipped at the true count. -/
theorem mergedStatus_notStronger (path : String) (w : Written) (trueOrbits : Option ℤ) :
    NotStronger w trueOrbits (mergedStatus (w.row path) trueOrbits) ↔
      ¬w.SkippedAtCount trueOrbits := by
  cases w with
  | perQuery t => exact iff_of_true (solved_notStronger rfl _) not_false
  | global result => exact iff_of_true (solved_notStronger rfl _) not_false
  | cryptoMiniSat result => exact iff_of_true (solved_notStronger rfl _) not_false
  | instanceTimeout =>
    refine iff_of_true ?_ not_false
    rw [Written.row, instanceTimeoutRow, mergedStatus_blank]
    exact unsolved_notStronger (by decide) (by decide) _
  | error simpleName message =>
    refine iff_of_true ?_ not_false
    rw [Written.row, errorRow, mergedStatus_blank]
    exact unsolved_notStronger (errorStatus_ne (by decide)) (errorStatus_ne (by decide)) _
  | skippedTooLarge activeCells =>
    rw [Written.row, skippedTooLargeRow, mergedStatus_unsolved, Written.SkippedAtCount]
    refine ⟨fun h hcount => ?_, fun hcount => ?_⟩
    · rw [if_neg (by rw [hcount]; exact Option.some_ne_none _), if_pos hcount.symm] at h
      exact (h.unproved fun recovered he => absurd he (Option.some_ne_none _).symm).1 rfl
    · rw [if_neg (Ne.symm hcount)]
      split <;> exact unsolved_notStronger (by decide) (by decide) _

theorem row_reset (path : String) (w : Written) : (w.row path).reset = w.row path := by
  cases w <;> rfl

theorem row_instance (path : String) (w : Written) : (w.row path).instance = path := by
  cases w <;> rfl

/-- Every row is written once, in order, with its merged status. -/
theorem mergeGroundTruth_rows {gtRows : List GroundTruthRow} {rows : List Row} {merged : Merged}
    (h : mergeGroundTruth gtRows rows = .ok merged) :
    List.Forall₂ (fun row row' : Row =>
      row'.status = mergedStatus row (usableTrueOrbits gtRows row.instance))
      (rows.map Row.reset) merged.rows := by
  have := foldlM_inv (P := fun done (m : Merged) => List.Forall₂ (fun row row' : Row =>
    row'.status = mergedStatus row (usableTrueOrbits gtRows row.instance)) done m.rows)
    (fun done row m m' hm hstep => by
      obtain ⟨row', hrows, hstatus⟩ := mergeRow_spec hstep
      rw [hrows]
      exact List.rel_append hm (.cons hstatus .nil)) (rows.map Row.reset) [] _ merged .nil h
  rwa [List.nil_append] at this

/-- Merging the runner's rows keeps every status within what its run showed, except for the instances
    skipped at the true count. -/
theorem mergeGroundTruth_notStronger {gtRows : List GroundTruthRow}
    {written : List (String × Written)} {merged : Merged}
    (h : mergeGroundTruth gtRows (written.map fun e => e.2.row e.1) = .ok merged) :
    List.Forall₂ (fun (e : String × Written) (row : Row) =>
      NotStronger e.2 (usableTrueOrbits gtRows e.1) row.status ↔
        ¬e.2.SkippedAtCount (usableTrueOrbits gtRows e.1)) written merged.rows := by
  have hrows := mergeGroundTruth_rows h
  rw [List.map_map, List.forall₂_map_left_iff] at hrows
  refine hrows.imp fun e row hstatus => ?_
  rw [Function.comp_apply, row_reset, row_instance] at hstatus
  rw [hstatus]
  exact mergedStatus_notStronger e.1 e.2 _

/-- The four-cycle has one orbit. -/
def fourCycleTruth : GroundTruthRow := ⟨"graphs/small/c4", "1", "12", "false", some "false"⟩

def fourCycleSolved : PerQueryTotals 4 :=
  { PerQueryTotals.start 4 Ahu.InternPool.empty with orbits := [[0, 1, 2, 3]] }

/-- A solved four-cycle and one that timed out keep within what was shown. -/
theorem mergeGroundTruth_notStronger_fourCycle : ∃ merged,
    mergeGroundTruth [fourCycleTruth] ([("graphs/small/c4", Written.perQuery fourCycleSolved),
      ("graphs/small/c4", .instanceTimeout)].map fun e => e.2.row e.1) = .ok merged ∧
    List.Forall₂ (fun (e : String × Written) (row : Row) =>
      NotStronger e.2 (usableTrueOrbits [fourCycleTruth] e.1) row.status ↔
        ¬e.2.SkippedAtCount (usableTrueOrbits [fourCycleTruth] e.1))
      [("graphs/small/c4", .perQuery fourCycleSolved), ("graphs/small/c4", .instanceTimeout)]
      merged.rows := by
  exact ⟨_, rfl, mergeGroundTruth_notStronger rfl⟩

/-- The four-cycle, skipped with its one colour class, is merged to EXACT. -/
theorem mergeGroundTruth_promotes_skipped :
    let skipped : Written := .skippedTooLarge [[(0 : Fin 4), 1, 2, 3]]
    ∃ merged, mergeGroundTruth [fourCycleTruth] [skipped.row "graphs/small/c4"] = .ok merged ∧
      merged.rows.map Row.status = ["EXACT"] ∧
      ∀ row ∈ merged.rows,
        ¬NotStronger skipped (usableTrueOrbits [fourCycleTruth] "graphs/small/c4") row.status := by
  refine ⟨_, rfl, rfl, fun row hrow hn => ?_⟩
  rw [List.mem_singleton.mp hrow] at hn
  exact (hn.unproved fun recovered he => absurd he (Option.some_ne_none _).symm).1 rfl

end Dialysis.Benchmark
