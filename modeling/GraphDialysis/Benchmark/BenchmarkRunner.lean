import GraphDialysis.Util.GraphIO
import Mathlib.Data.List.Infix

/-! The loop of `BenchmarkRunner` and its resumption. A run appends one line per measurement to the file,
    and a restart skips every instance whose name stands in the second column of any line. A run can
    be cut anywhere; what stands in the file then is a beginning of what the run would have written.
    `reached_spec`: no rows are lost or repeated as long as every cut is a `SafeCut`. -/

namespace Dialysis.BenchmarkRunner
open Lib GraphIO

def headerColumns : List KString :=
  ["family", "instance", "n", "m", "config", "repeat", "seed", "classes_1wl", "classes_pi",
    "class_size_max", "class_size_mean", "colouring_ms", "variables", "clauses_bijection",
    "clauses_edge", "clauses_implied", "anchors_k", "dmax", "encode_ms", "formula_peak_rss_mb",
    "queries_issued", "queries_skipped_witness", "queries_skipped_separation", "sat", "unsat",
    "unknown", "solve_ms_total", "solve_ms_max", "solve_ms_median", "per_query_timeout_ms",
    "workers", "straggler_ratio", "witnesses_verified", "witnesses_rejected",
    "recovered_orbits", "true_orbits", "gt_source", "status", "total_ms", "peak_rss_mb",
    "wl1_original", "pi_subdivision", "pi_to_original", "colouring_used", "subdivided",
    "subdivision_mode", "n_solved", "filter_mode", "global_edge_clause_estimate",
    "per_query_edge_clause_estimate", "solver", "gadget_xor_clusters"].map String.toList

def header : KString := [','].intercalate headerColumns

/-- An exception, by the name of its class and its message. -/
structure Thrown where
  simpleName : KString
  message : KString

/-- A file of a family's directory, with the number of vertices that loading it gives. -/
structure Instance where
  family : KString
  path : KString
  load : Except Thrown ℕ

structure CliArgs where
  minVertices : ℤ
  maxVertices : ℤ
  config : KString
  repeats : ℕ

/-- Text inside one column. -/
def Plain (s : KString) : Prop := ∀ c ∈ s, c ≠ ',' ∧ c ≠ '\n' ∧ c ≠ '\r'

instance (s : KString) : Decidable (Plain s) :=
  show Decidable (∀ c ∈ s, c ≠ ',' ∧ c ≠ '\n' ∧ c ≠ '\r') from List.decidableBAll _ s

/-- The columns that `measureOne` puts behind the family and the path. -/
structure Measurement where
  columns : List KString
  length : columns.length + 2 = headerColumns.length
  plain : ∀ column ∈ columns, Plain column

/-- What the measurements give in one start of the program. -/
abbrev Session := Instance → ℕ → Except Thrown Measurement

def row (inst : Instance) (m : Measurement) : KString :=
  [','].intercalate (inst.family :: inst.path :: m.columns)

/-- A row with the right column count even on failure. -/
def errorRow (cli : CliArgs) (inst : Instance) (e : Thrown) : KString :=
  let status := ("ERROR: ".toList ++ e.simpleName ++ ": ".toList ++ e.message).map fun c =>
    if c = ',' then ';' else if c = '\n' then ' ' else c
  [','].intercalate (headerColumns.map fun column =>
    if column = "family".toList then inst.family
    else if column = "instance".toList then inst.path
    else if column = "config".toList then cli.config
    else if column = "status".toList then status
    else [])

/-- The lines of the file behind the first. -/
def dataLines (out : Option KString) : List KString := (out.elim [] readLines).drop 1

/-- The name in the second column. -/
def nameOf (line : KString) : Option KString := (line.splitOn ',')[1]?

def alreadyDone (out : Option KString) : List KString :=
  (dataLines out).filterMap fun line => (nameOf line).filter fun name => !name.all isWhitespace

def lineBreak : KString := ['\n']

def textOf (lines : List KString) : KString := lines.flatMap (· ++ lineBreak)

section
variable (cli : CliArgs) (s : Session)

/-- The lines of the repeats that are left, and whether the program exits after them. -/
def repeatLoop (inst : Instance) : List ℕ → List KString × Bool
  | [] => ([], false)
  | k :: ks =>
    match s inst k with
    | .error e => ([errorRow cli inst e], false)
    | .ok m =>
      if ",INSTANCE_TIMEOUT,".toList <:+: row inst m then ([row inst m], true)
      else (row inst m :: (repeatLoop inst ks).1, (repeatLoop inst ks).2)

def instanceRows (inst : Instance) : List KString × Bool :=
  match inst.load with
  | .error e => ([errorRow cli inst e], false)
  | .ok n =>
    if n < cli.minVertices then ([], false)
    else if n > cli.maxVertices then ([], false)
    else repeatLoop cli s inst (List.range' 1 cli.repeats)

def instanceLoop (done : List KString) : List Instance → List KString
  | [] => []
  | inst :: rest =>
    if inst.path ∈ done then instanceLoop done rest
    else
      let r := instanceRows cli s inst
      if r.2 then r.1 else r.1 ++ instanceLoop done rest

/-- What is left of the file when it has been opened: it is written anew unless the run resumes. -/
def kept (out : Option KString) : KString := if alreadyDone out = [] then [] else out.getD []

/-- The header, or the line break that the last line lacks. -/
def lead (out : Option KString) : KString :=
  if alreadyDone out = [] then header ++ lineBreak
  else if (out.getD []).getLast? = some '\n' then [] else lineBreak

/-- What the run writes. -/
def written (instances : List Instance) (out : Option KString) : KString :=
  lead out ++ textOf (instanceLoop cli s (alreadyDone out) instances)

/-- The file after a run that has finished. -/
def main (instances : List Instance) (out : Option KString) : Option KString :=
  some (kept out ++ written cli s instances out)

/-- The run is interrupted, before it opens the file or while it writes. -/
inductive Interrupted (instances : List Instance) : Option KString → Option KString → Prop
  | early (out) : Interrupted instances out out
  | cut {out p} (h : p <+: written cli s instances out) :
      Interrupted instances out (some (kept out ++ p))

end

/-! ### What is to be measured -/

section
variable (cli : CliArgs)

def Instance.Eligible (inst : Instance) : Prop :=
  ∃ n : ℕ, inst.load = .ok n ∧ cli.minVertices ≤ n ∧ n ≤ cli.maxVertices

instance (inst : Instance) : Decidable (inst.Eligible cli) :=
  match h : inst.load with
  | .error _ => .isFalse fun ⟨n, hn, _⟩ => by rw [h] at hn; cases hn
  | .ok n => decidable_of_iff (cli.minVertices ≤ n ∧ n ≤ cli.maxVertices)
      ⟨fun hn => ⟨n, h, hn⟩, fun ⟨k, hk, hn⟩ => by rw [h] at hk; cases hk; exact hn⟩

/-- The instances that a run measures. -/
def pending (instances : List Instance) (done : List KString) : List Instance :=
  instances.filter fun inst => inst.Eligible cli ∧ inst.path ∉ done

/-- The rows of an instance. -/
def block (s : Session) (inst : Instance) : List KString :=
  (repeatLoop cli s inst (List.range' 1 cli.repeats)).1

/-- No measurement throws or times out. -/
def Calm (s : Session) (instances : List Instance) : Prop :=
  ∀ inst ∈ instances, (∃ n, inst.load = .ok n) ∧ (inst.Eligible cli → ∀ k, 1 ≤ k → k ≤ cli.repeats →
    ∃ m, s inst k = .ok m ∧ ¬",INSTANCE_TIMEOUT,".toList <:+: row inst m)

/-- The eligible instances have different names, which are text inside one column. -/
structure Listed (instances : List Instance) : Prop where
  nodup : ((instances.filter fun inst => inst.Eligible cli).map Instance.path).Nodup
  plain : ∀ inst ∈ instances, inst.Eligible cli → Plain inst.family ∧ Plain inst.path
  nonblank : ∀ inst ∈ instances, inst.Eligible cli → inst.path.all isWhitespace = false

/-- A line of the instance with all its columns. -/
def IsComplete (inst : Instance) (line : KString) : Prop :=
  (line.splitOn ',').length = headerColumns.length ∧
    (line.splitOn ',').take 2 = [inst.family, inst.path]

instance (inst : Instance) (line : KString) : Decidable (IsComplete inst line) :=
  inferInstanceAs (Decidable (_ ∧ _))

/-- The complete rows that the file holds for the instance. -/
def completeRows (inst : Instance) (out : Option KString) : List KString :=
  (dataLines out).filter fun line => IsComplete inst line

/-- The first two columns of every row of the instance. -/
def Instance.name (inst : Instance) : KString := inst.family ++ ',' :: inst.path

/-- A cut outside the rows of all instances: between two instances, with or without the line break of
    the last row, or inside the first two columns of a first row, where what stands there so far is
    not itself the name of an instance that is still to be measured. -/
inductive SafeCut (s : Session) (instances : List Instance) (out : Option KString) : KString → Prop
  | lead {p} (h : p <+: lead out) : SafeCut s instances out p
  | between {before after} (h : pending cli instances (alreadyDone out) = before ++ after) :
      SafeCut s instances out (lead out ++ textOf (before.flatMap (block cli s)))
  | noBreak {before after p} (h : pending cli instances (alreadyDone out) = before ++ after)
      (hne : before ≠ []) (hp : p ++ lineBreak = lead out ++ textOf (before.flatMap (block cli s))) :
      SafeCut s instances out p
  | inName {before inst after q} (h : pending cli instances (alreadyDone out) = before ++ inst :: after)
      (hq : q <+: inst.name) (hne : q ≠ inst.name)
      (hother : ∀ other ∈ inst :: after, nameOf q ≠ some other.path) :
      SafeCut s instances out (lead out ++ textOf (before.flatMap (block cli s)) ++ q)

/-- Starting without a file, after runs that were all interrupted by safe cuts or before they opened
    the file. -/
inductive Reached (instances : List Instance) : Option KString → Prop
  | start : Reached instances none
  | cut {out s p} (h : Reached instances out) (hs : Calm cli s instances)
      (hp : p <+: written cli s instances out) (hsafe : SafeCut cli s instances out p) :
      Reached instances (some (kept out ++ p))

end

/-! ### Columns -/

theorem not_mem_of_plain {s : KString} (h : Plain s) : ',' ∉ s := fun hc => (h _ hc).1 rfl

theorem oneLine_of_plain {s : KString} (h : Plain s) : OneLine s := fun c hc => (h c hc).2

variable {inst : Instance}

theorem row_splitOn (hinst : Plain inst.family ∧ Plain inst.path) (m : Measurement) :
    (row inst m).splitOn ',' = inst.family :: inst.path :: m.columns := by
  refine List.splitOn_intercalate ',' (fun column h => not_mem_of_plain ?_) (List.cons_ne_nil _ _)
  rcases List.mem_cons.mp h with rfl | h
  · exact hinst.1
  · rcases List.mem_cons.mp h with rfl | h
    · exact hinst.2
    · exact m.plain column h

theorem nameOf_row (hinst : Plain inst.family ∧ Plain inst.path) (m : Measurement) :
    nameOf (row inst m) = some inst.path := by
  rw [nameOf, row_splitOn hinst]
  rfl

theorem isComplete_row (hinst : Plain inst.family ∧ Plain inst.path) (m : Measurement) :
    IsComplete inst (row inst m) := by
  rw [IsComplete, row_splitOn hinst]
  exact ⟨m.length, rfl⟩

theorem IsComplete.nameOf {line : KString} (h : IsComplete inst line) : nameOf line = some inst.path := by
  obtain ⟨-, htake⟩ := h
  rw [BenchmarkRunner.nameOf]
  match hsplit : line.splitOn ',', htake with
  | [], h => cases h
  | [_], h => cases h
  | _ :: _ :: _, h =>
    cases h
    rfl

theorem intercalate_cons (column : KString) : ∀ columns : List KString,
    [','].intercalate (column :: columns) = column ++ columns.flatMap (',' :: ·)
  | [] => by rw [List.intercalate_singleton, List.flatMap_nil, List.append_nil]
  | next :: columns => by
    rw [List.intercalate_cons_cons, intercalate_cons next columns, List.flatMap_cons, List.append_assoc,
      List.singleton_append, List.cons_append]

theorem row_eq (inst : Instance) (m : Measurement) :
    row inst m = inst.name ++ m.columns.flatMap (',' :: ·) := by
  rw [row, intercalate_cons, Instance.name, List.flatMap_cons, List.append_assoc]

theorem row_line (hinst : Plain inst.family ∧ Plain inst.path) (m : Measurement) :
    row inst m ≠ [] ∧ OneLine (row inst m) := by
  rw [row_eq]
  refine ⟨by simp [Instance.name], fun c hc => ?_⟩
  rw [Instance.name, List.append_assoc, List.mem_append, List.cons_append, List.mem_cons, List.mem_append,
    List.mem_flatMap] at hc
  rcases hc with hc | rfl | hc | ⟨column, hcolumn, hc⟩
  · exact oneLine_of_plain hinst.1 c hc
  · decide
  · exact oneLine_of_plain hinst.2 c hc
  · rcases List.mem_cons.mp hc with rfl | hc
    · decide
    · exact oneLine_of_plain (m.plain column hcolumn) c hc

/-- A piece of the first two columns has at most two. -/
theorem splitOn_prefix_name (hinst : Plain inst.family ∧ Plain inst.path) {q : KString}
    (hq : q <+: inst.name) : (q.splitOn ',').length ≤ 2 := by
  have hfamily := not_mem_of_plain hinst.1
  rcases List.prefix_or_prefix_of_prefix hq (List.prefix_append inst.family (',' :: inst.path)) with h | h
  · rw [List.splitOn_eq_singleton fun hc => hfamily (h.subset hc), List.length_singleton]
    omega
  · obtain ⟨r, rfl⟩ := h
    have hr := (List.prefix_append_right_inj _).mp hq
    cases r with
    | nil =>
      rw [List.append_nil, List.splitOn_eq_singleton hfamily, List.length_singleton]
      omega
    | cons c r =>
      obtain ⟨rfl, hpath⟩ := List.cons_prefix_cons.mp hr
      rw [List.splitOn_append_cons_self_of_not_mem hfamily,
        List.splitOn_eq_singleton fun hc => not_mem_of_plain hinst.2 (hpath.subset hc)]
      exact le_rfl

theorem not_isComplete_of_prefix_name (hinst : Plain inst.family ∧ Plain inst.path) {q : KString}
    (hq : q <+: inst.name) (other : Instance) : ¬IsComplete other q := by
  intro h
  have hlen := splitOn_prefix_name hinst hq
  rw [h.1] at hlen
  exact absurd hlen (by decide)

theorem oneLine_of_prefix_name (hinst : Plain inst.family ∧ Plain inst.path) {q : KString}
    (hq : q <+: inst.name) : OneLine q := by
  intro c hc
  have hmem := hq.subset hc
  rw [Instance.name, List.mem_append, List.mem_cons] at hmem
  rcases hmem with hc | rfl | hc
  · exact oneLine_of_plain hinst.1 c hc
  · decide
  · exact oneLine_of_plain hinst.2 c hc

/-! ### The rows of a run -/

section
variable {cli : CliArgs} {s : Session} {instances : List Instance} {done : List KString}

theorem repeatLoop_eq {ks : List ℕ}
    (h : ∀ k ∈ ks, ∃ m, s inst k = .ok m ∧ ¬",INSTANCE_TIMEOUT,".toList <:+: row inst m) :
    ∃ ms : List Measurement, ms.length = ks.length ∧ repeatLoop cli s inst ks = (ms.map (row inst), false) := by
  induction ks with
  | nil => exact ⟨[], rfl, rfl⟩
  | cons k ks ih =>
    obtain ⟨⟨m, hm, hinfix⟩, hks⟩ := List.forall_mem_cons.mp h
    obtain ⟨ms, hlen, hrows⟩ := ih hks
    refine ⟨m :: ms, by rw [List.length_cons, List.length_cons, hlen], ?_⟩
    rw [repeatLoop, hm]
    dsimp only
    rw [if_neg hinfix, hrows]
    rfl

/-- An eligible instance gets one row for each repeat. -/
theorem Calm.block (hs : Calm cli s instances) (hinst : inst ∈ instances) (helig : inst.Eligible cli) :
    ∃ ms : List Measurement, ms.length = cli.repeats ∧ block cli s inst = ms.map (row inst) ∧
      instanceRows cli s inst = (ms.map (row inst), false) := by
  have hall : ∀ k ∈ List.range' 1 cli.repeats,
      ∃ m, s inst k = .ok m ∧ ¬",INSTANCE_TIMEOUT,".toList <:+: row inst m := fun k hk => by
    rw [List.mem_range'_1] at hk
    exact (hs inst hinst).2 helig k hk.1 (by omega)
  obtain ⟨ms, hlen, hrows⟩ := repeatLoop_eq hall
  rw [List.length_range'] at hlen
  refine ⟨ms, hlen, by rw [BenchmarkRunner.block, hrows], ?_⟩
  obtain ⟨n, hn, hlo, hhi⟩ := helig
  rw [instanceRows, hn]
  dsimp only
  rw [if_neg (not_lt.mpr hlo), if_neg (not_lt.mpr hhi), hrows]

theorem instanceRows_of_not_eligible (hs : Calm cli s instances) (hinst : inst ∈ instances)
    (helig : ¬inst.Eligible cli) : instanceRows cli s inst = ([], false) := by
  obtain ⟨n, hn⟩ := (hs inst hinst).1
  rw [instanceRows, hn]
  dsimp only
  split
  · rfl
  · rename_i hlo
    split
    · rfl
    · rename_i hhi
      exact absurd ⟨n, hn, not_lt.mp hlo, not_lt.mp hhi⟩ helig

/-- A calm run writes the rows of all that is pending. -/
theorem Calm.instanceLoop (hs : Calm cli s instances) :
    instanceLoop cli s done instances = (pending cli instances done).flatMap (BenchmarkRunner.block cli s) := by
  have hsub : ∀ rest : List Instance, (∀ inst ∈ rest, inst ∈ instances) →
      BenchmarkRunner.instanceLoop cli s done rest =
        (pending cli rest done).flatMap (BenchmarkRunner.block cli s) := by
    intro rest
    induction rest with
    | nil => intro _; rfl
    | cons inst rest ih =>
      intro hrest
      obtain ⟨hinst, hrest⟩ := List.forall_mem_cons.mp hrest
      rw [BenchmarkRunner.instanceLoop, pending, List.filter_cons]
      by_cases hdone : inst.path ∈ done
      · simp only [hdone, if_true, not_true_eq_false, and_false, decide_false, Bool.false_eq_true, if_false]
        exact ih hrest
      · rw [if_neg hdone]
        by_cases helig : inst.Eligible cli
        · obtain ⟨ms, -, hblock, hrows⟩ := hs.block hinst helig
          simp only [hrows, helig, hdone, not_false_eq_true, and_true, decide_true, if_true,
            Bool.false_eq_true, if_false, List.flatMap_cons, hblock]
          rw [ih hrest, pending]
        · simp only [instanceRows_of_not_eligible hs hinst helig, helig, false_and, decide_false,
            Bool.false_eq_true, if_false, List.nil_append]
          exact ih hrest
  exact hsub instances fun _ h => h

theorem mem_pending : inst ∈ pending cli instances done ↔
    inst ∈ instances ∧ inst.Eligible cli ∧ inst.path ∉ done := by
  rw [pending, List.mem_filter, decide_eq_true_eq]

theorem Listed.pending_nodup (h : Listed cli instances) :
    ((pending cli instances done).map Instance.path).Nodup := by
  refine h.nodup.sublist (List.Sublist.map _ ?_)
  refine List.monotone_filter_right _ fun inst hinst => ?_
  rw [decide_eq_true_eq] at hinst ⊢
  exact hinst.1

/-! ### What the lines of the file say -/

/-- Every eligible instance has either all its complete rows or no line that names it. -/
structure Ledger (cli : CliArgs) (instances : List Instance) (lines : List KString) : Prop where
  whole : ∀ line ∈ lines, line ≠ [] ∧ OneLine line
  counts : ∀ inst ∈ instances, inst.Eligible cli →
    (some inst.path ∈ lines.map nameOf ∧
      (lines.filter fun line => IsComplete inst line).length = cli.repeats) ∨
    some inst.path ∉ lines.map nameOf

theorem ledger_nil : Ledger cli instances [] := ⟨by simp, fun _ _ _ => Or.inr (by simp)⟩

theorem filter_eq_nil_of_name {lines : List KString} (h : some inst.path ∉ lines.map nameOf) :
    (lines.filter fun line => IsComplete inst line) = [] := by
  refine List.filter_eq_nil_iff.mpr fun line hline hcomplete => h ?_
  rw [← (of_decide_eq_true hcomplete).nameOf]
  exact List.mem_map_of_mem hline

section
variable (hs : Calm cli s instances) (hlisted : Listed cli instances) {before : List Instance}
  (hbefore : ∀ inst ∈ before, inst ∈ instances ∧ inst.Eligible cli)
include hs hlisted hbefore

/-- The lines of a run name what it measures. -/
theorem mem_map_nameOf_blocks {name : KString} :
    some name ∈ (before.flatMap (block cli s)).map nameOf → ∃ inst ∈ before, inst.path = name := by
  intro h
  obtain ⟨line, hline, hname⟩ := List.mem_map.mp h
  obtain ⟨inst, hinst, hline⟩ := List.mem_flatMap.mp hline
  obtain ⟨hmem, helig⟩ := hbefore inst hinst
  obtain ⟨ms, -, hblock, -⟩ := hs.block hmem helig
  rw [hblock] at hline
  obtain ⟨m, -, rfl⟩ := List.mem_map.mp hline
  rw [nameOf_row (hlisted.plain inst hmem helig)] at hname
  exact ⟨inst, hinst, Option.some.inj hname⟩

theorem blocks_lines : ∀ line ∈ before.flatMap (block cli s), line ≠ [] ∧ OneLine line := by
  intro line hline
  obtain ⟨inst, hinst, hline⟩ := List.mem_flatMap.mp hline
  obtain ⟨hmem, helig⟩ := hbefore inst hinst
  obtain ⟨ms, -, hblock, -⟩ := hs.block hmem helig
  rw [hblock] at hline
  obtain ⟨m, -, rfl⟩ := List.mem_map.mp hline
  exact row_line (hlisted.plain inst hmem helig) m

/-- Whatever is measured is named. -/
theorem name_mem_blocks (hrepeats : 1 ≤ cli.repeats) {inst : Instance} (hinst : inst ∈ before) :
    some inst.path ∈ (before.flatMap (block cli s)).map nameOf := by
  obtain ⟨hmem, helig⟩ := hbefore inst hinst
  obtain ⟨ms, hlen, hblock, -⟩ := hs.block hmem helig
  obtain ⟨m, ms', rfl⟩ := List.exists_cons_of_length_pos (l := ms) (by omega)
  refine List.mem_map.mpr ⟨row inst m, List.mem_flatMap.mpr ⟨inst, hinst, ?_⟩,
    nameOf_row (hlisted.plain inst hmem helig) m⟩
  rw [hblock]
  exact List.mem_cons_self

omit hbefore in
/-- Each instance gets exactly its rows. -/
theorem filter_blocks : ∀ {before : List Instance},
    (∀ inst ∈ before, inst ∈ instances ∧ inst.Eligible cli) → (before.map Instance.path).Nodup →
      ∀ inst ∈ before,
        ((before.flatMap (block cli s)).filter fun line => IsComplete inst line).length = cli.repeats
  | [], _, _ => by simp
  | first :: before, hbefore, hnodup => by
    obtain ⟨⟨hmem, helig⟩, hrest⟩ := List.forall_mem_cons.mp hbefore
    rw [List.map_cons, List.nodup_cons] at hnodup
    obtain ⟨ms, hlen, hblock, -⟩ := hs.block hmem helig
    have hplain := hlisted.plain first hmem helig
    rw [List.forall_mem_cons, List.flatMap_cons]
    refine ⟨?_, fun inst hinst => ?_⟩
    · have hnone := filter_eq_nil_of_name fun h => by
        obtain ⟨other, hother, hpath⟩ := mem_map_nameOf_blocks hs hlisted hrest h
        exact hnodup.1 (hpath ▸ List.mem_map_of_mem hother)
      have hall : (ms.map (row first)).filter (fun line => IsComplete first line) = ms.map (row first) := by
        refine List.filter_eq_self.mpr fun line hline => ?_
        obtain ⟨m, -, rfl⟩ := List.mem_map.mp hline
        exact decide_eq_true (isComplete_row hplain m)
      rw [List.filter_append, hnone, hblock, hall, List.append_nil, List.length_map, hlen]
    · have hnone : (block cli s first).filter (fun line => IsComplete inst line) = [] :=
          filter_eq_nil_of_name fun h => by
        obtain ⟨line, hline, hname⟩ := List.mem_map.mp h
        rw [hblock] at hline
        obtain ⟨m, -, rfl⟩ := List.mem_map.mp hline
        rw [nameOf_row hplain] at hname
        exact hnodup.1 (Option.some.inj hname ▸ List.mem_map_of_mem hinst)
      rw [List.filter_append, hnone, List.nil_append]
      exact filter_blocks hrest hnodup.2 inst hinst

end

/-- Lines that a run adds, up to a safe cut, keep the ledger. -/
theorem Ledger.extend (hs : Calm cli s instances) (hlisted : Listed cli instances)
    (hrepeats : 1 ≤ cli.repeats) {lines : List KString} (h : Ledger cli instances lines)
    (hdone : ∀ inst ∈ instances, inst.Eligible cli →
      (inst.path ∈ done ↔ some inst.path ∈ lines.map nameOf))
    {before after : List Instance} (hpending : pending cli instances done = before ++ after)
    {rest : List KString} (hrest : ∀ q ∈ rest, (q ≠ [] ∧ OneLine q) ∧ (∀ inst, ¬IsComplete inst q) ∧
      ∀ other ∈ after, nameOf q ≠ some other.path) :
    Ledger cli instances (lines ++ (before.flatMap (block cli s) ++ rest)) := by
  have hmem : ∀ inst ∈ before, inst ∈ pending cli instances done :=
    fun inst hinst => hpending ▸ List.mem_append_left _ hinst
  have hbefore : ∀ inst ∈ before, inst ∈ instances ∧ inst.Eligible cli := fun inst hinst => by
    obtain ⟨h₁, h₂, -⟩ := mem_pending.mp (hmem inst hinst)
    exact ⟨h₁, h₂⟩
  have hnodup : ((before ++ after).map Instance.path).Nodup := hpending ▸ hlisted.pending_nodup
  rw [List.map_append, List.nodup_append] at hnodup
  constructor
  · intro line hline
    rcases List.mem_append.mp hline with hline | hline
    · exact h.whole line hline
    · rcases List.mem_append.mp hline with hline | hline
      · exact blocks_lines hs hlisted hbefore line hline
      · exact (hrest line hline).1
  · intro inst hinst helig
    have hfragment : (rest.filter fun line => IsComplete inst line) = [] :=
      List.filter_eq_nil_iff.mpr fun q hq hcomplete =>
        (hrest q hq).2.1 inst (of_decide_eq_true hcomplete)
    rw [List.filter_append, List.filter_append, hfragment, List.append_nil, List.map_append, List.map_append,
      List.mem_append, List.mem_append, List.length_append]
    rcases h.counts inst hinst helig with ⟨hname, hcount⟩ | hname
    · -- an instance that has its rows is not measured again
      have hnone := filter_eq_nil_of_name fun hin => by
        obtain ⟨other, hother, hpath⟩ := mem_map_nameOf_blocks hs hlisted hbefore hin
        refine (mem_pending.mp (hmem other hother)).2.2 ?_
        rw [hpath]
        exact (hdone inst hinst helig).mpr hname
      exact Or.inl ⟨Or.inl hname, by rw [hnone, List.length_nil, Nat.add_zero, hcount]⟩
    · have hpend : inst ∈ before ++ after :=
        hpending ▸ mem_pending.mpr ⟨hinst, helig, fun hin => hname ((hdone inst hinst helig).mp hin)⟩
      rcases List.mem_append.mp hpend with hin | hin
      · refine Or.inl ⟨Or.inr (Or.inl (name_mem_blocks hs hlisted hbefore hrepeats hin)), ?_⟩
        rw [filter_eq_nil_of_name hname, List.length_nil, Nat.zero_add,
          filter_blocks hs hlisted hbefore hnodup.1 inst hin]
      · refine Or.inr ?_
        rintro (hold | hblock | hfrag)
        · exact hname hold
        · obtain ⟨other, hother, hpath⟩ := mem_map_nameOf_blocks hs hlisted hbefore hblock
          exact hnodup.2.2 _ (List.mem_map_of_mem hother) _ (List.mem_map_of_mem hin) hpath
        · obtain ⟨q, hq, hqname⟩ := List.mem_map.mp hfrag
          exact (hrest q hq).2.2 inst hin hqname

/-! ### The file -/

theorem oneLine_header : OneLine header := by decide +kernel

theorem textOf_append (lines lines' : List KString) : textOf (lines ++ lines') = textOf lines ++ textOf lines' :=
  List.flatMap_append

theorem textOf_singleton (line : KString) : textOf [line] = line ++ lineBreak := by
  rw [textOf, List.flatMap_cons, List.flatMap_nil, List.append_nil]

/-- The text of the header and the lines, perhaps without the last line break. -/
def IsText (lines : List KString) (text : KString) : Prop :=
  text = textOf (header :: lines) ∨ lines ≠ [] ∧ text ++ lineBreak = textOf (header :: lines)

/-- Without the last line break the text ends with the last line. -/
theorem eq_of_append_lineBreak {init : List KString} {last text : KString}
    (h : text ++ lineBreak = textOf (header :: (init ++ [last]))) : text = textOf (header :: init) ++ last := by
  rw [← List.cons_append, textOf_append, textOf_singleton, ← List.append_assoc] at h
  exact List.append_cancel_right h

theorem IsText.readLines {lines : List KString} {text : KString} (h : IsText lines text)
    (hlines : ∀ line ∈ lines, line ≠ [] ∧ OneLine line) : Lib.readLines text = header :: lines := by
  have hall : ∀ line ∈ header :: lines, OneLine line :=
    List.forall_mem_cons.mpr ⟨oneLine_header, fun line hline => (hlines line hline).2⟩
  rcases h with rfl | ⟨hne, h⟩
  · exact readLines_terminated hall
  · obtain rfl | ⟨init, last, rfl⟩ := List.eq_nil_or_concat' lines
    · exact absurd rfl hne
    · obtain ⟨hlast, hone⟩ := hlines last (List.mem_append_right _ List.mem_cons_self)
      have hinit : ∀ line ∈ header :: init, OneLine line := fun line hline =>
        hall line (List.cons_append ▸ List.mem_append_left _ hline)
      rw [eq_of_append_lineBreak h]
      refine (readLines_lines_append last hinit).trans ?_
      rw [readLines_oneLine hlast hone, List.cons_append]

/-- The last line break is missing or there. -/
theorem IsText.lead {lines : List KString} {text : KString} (h : IsText lines text)
    (hlines : ∀ line ∈ lines, line ≠ [] ∧ OneLine line) :
    text ++ (if text.getLast? = some '\n' then [] else lineBreak) = textOf (header :: lines) := by
  rcases h with rfl | ⟨hne, h⟩
  · have hlast : (textOf (header :: lines)).getLast? = some '\n' := by
      obtain ⟨init, last, heq⟩ := (List.eq_nil_or_concat' (header :: lines)).resolve_left (List.cons_ne_nil _ _)
      rw [heq, textOf_append, textOf_singleton, ← List.append_assoc]
      exact List.getLast?_concat
    rw [if_pos hlast, List.append_nil]
  · obtain ⟨init, last, rfl⟩ := (List.eq_nil_or_concat' lines).resolve_left hne
    obtain ⟨hlast, hone⟩ := hlines last (List.mem_append_right _ List.mem_cons_self)
    have hbreak : text.getLast? ≠ some '\n' := by
      rw [eq_of_append_lineBreak h, List.getLast?_append_of_ne_nil _ hlast]
      intro hc
      exact (hone _ (List.mem_of_getLast? hc)).1 rfl
    rw [if_neg hbreak, h]

/-- There is no line behind the header, or the file is the header and a ledger. -/
def LedgerFile (cli : CliArgs) (instances : List Instance) (out : Option KString) : Prop :=
  dataLines out = [] ∨ ∃ text lines, out = some text ∧ IsText lines text ∧ Ledger cli instances lines

theorem LedgerFile.ledger {out : Option KString} (h : LedgerFile cli instances out) :
    Ledger cli instances (dataLines out) := by
  rcases h with h | ⟨text, lines, rfl, htext, hledger⟩
  · rw [h]
    exact ledger_nil
  · have hread : dataLines (some text) = lines := by
      rw [dataLines, Option.elim_some, htext.readLines hledger.whole]
      rfl
    rwa [hread]

theorem mem_alreadyDone {out : Option KString} (hblank : inst.path.all isWhitespace = false) :
    inst.path ∈ alreadyDone out ↔ some inst.path ∈ (dataLines out).map nameOf := by
  rw [alreadyDone, List.mem_filterMap, List.mem_map]
  refine exists_congr fun line => and_congr_right fun _ => ?_
  rw [Option.filter_eq_some_iff]
  exact and_iff_left (by rw [hblank]; rfl)

/-- What a run finds in the file, and where it goes on writing. -/
theorem LedgerFile.base {out : Option KString} (h : LedgerFile cli instances out)
    (hlisted : Listed cli instances) : ∃ base, Ledger cli instances base ∧
      kept out ++ lead out = textOf (header :: base) ∧
      (∀ inst ∈ instances, inst.Eligible cli →
        (inst.path ∈ alreadyDone out ↔ some inst.path ∈ base.map nameOf)) ∧
      (alreadyDone out ≠ [] → LedgerFile cli instances (some (kept out))) := by
  by_cases hdone : alreadyDone out = []
  · refine ⟨[], ledger_nil, ?_, ?_, absurd hdone⟩
    · rw [kept, lead, if_pos hdone, if_pos hdone, List.nil_append, textOf_singleton]
    · intro inst _ _
      rw [hdone]
      simp
  · rcases id h with hnil | ⟨text, lines, rfl, htext, hledger⟩
    · exact absurd (by rw [alreadyDone, hnil]; rfl) hdone
    · refine ⟨lines, hledger, ?_, ?_, fun _ => ?_⟩
      · rw [kept, lead, if_neg hdone, if_neg hdone]
        exact htext.lead hledger.whole
      · intro inst hinst helig
        rw [mem_alreadyDone (hlisted.nonblank inst hinst helig), dataLines, Option.elim_some,
          htext.readLines hledger.whole]
        rfl
      · rw [kept, if_neg hdone]
        exact h

/-! ### Runs -/

section
variable (hlisted : Listed cli instances) (hrepeats : 1 ≤ cli.repeats)
include hlisted hrepeats

/-- A safe cut leaves a ledger. -/
theorem LedgerFile.cut {out : Option KString} (h : LedgerFile cli instances out) (hs : Calm cli s instances)
    {p : KString} (hp : SafeCut cli s instances out p) :
    LedgerFile cli instances (some (kept out ++ p)) := by
  obtain ⟨base, hbase, htext, hnames, hkept⟩ := h.base hlisted
  -- what has been added behind the lead are whole blocks and a rest
  have hextend : ∀ (before : List Instance) {after : List Instance} (rest : List KString) {p : KString},
      pending cli instances (alreadyDone out) = before ++ after →
      (∀ q ∈ rest, (q ≠ [] ∧ OneLine q) ∧ (∀ inst, ¬IsComplete inst q) ∧
        ∀ other ∈ after, nameOf q ≠ some other.path) →
      (p = lead out ++ textOf (before.flatMap (block cli s) ++ rest) ∨
        before.flatMap (block cli s) ++ rest ≠ [] ∧
          p ++ lineBreak = lead out ++ textOf (before.flatMap (block cli s) ++ rest)) →
      LedgerFile cli instances (some (kept out ++ p)) := by
    intro before after rest p hpending hrest hp
    refine Or.inr ⟨_, _, rfl, ?_, hbase.extend hs hlisted hrepeats hnames hpending hrest⟩
    rw [IsText, ← List.cons_append, textOf_append, ← htext]
    refine hp.imp (fun hp => ?_) fun hp => ⟨?_, ?_⟩
    · rw [hp, List.append_assoc]
    · simpa using fun _ => hp.1
    · rw [List.append_assoc, hp.2, List.append_assoc]
  cases hp with
  | lead hp =>
    by_cases hdone : alreadyDone out = []
    · left
      rw [lead, if_pos hdone, lineBreak, List.prefix_concat_iff] at hp
      rw [kept, if_pos hdone, List.nil_append, dataLines, Option.elim_some]
      rcases hp with rfl | hp
      · rw [← lineBreak, ← textOf_singleton, textOf, lineBreak, readLines_terminated (by simpa using oneLine_header)]
        rfl
      · by_cases hnil : p = []
        · rw [hnil]
          rfl
        · rw [readLines_oneLine hnil fun c hc => oneLine_header c (hp.subset hc)]
          rfl
    · have hcases : p = [] ∨ p = lead out := by
        rw [lead, if_neg hdone] at hp ⊢
        split at hp
        · exact Or.inl (List.prefix_nil.mp hp)
        · rw [if_neg ‹_›]
          exact (List.prefix_concat_iff.mp hp).symm.imp List.prefix_nil.mp id
      rcases hcases with rfl | rfl
      · rw [List.append_nil]
        exact hkept hdone
      · exact hextend [] [] rfl (by simp) (Or.inl (List.append_nil _).symm)
  | between hpending => exact hextend _ [] hpending (by simp) (Or.inl (by rw [List.append_nil]))
  | noBreak hpending hne hp =>
    refine hextend _ [] hpending (by simp) (Or.inr ⟨?_, by rw [List.append_nil, hp]⟩)
    obtain ⟨inst, rest, rfl⟩ := List.exists_cons_of_ne_nil hne
    have hnamed := name_mem_blocks hs hlisted (fun i hi => by
      obtain ⟨h₁, h₂, -⟩ := mem_pending.mp
        (hpending ▸ List.mem_append_left _ hi : i ∈ pending cli instances _)
      exact ⟨h₁, h₂⟩) hrepeats List.mem_cons_self
    intro hnil
    rw [List.append_nil] at hnil
    rw [hnil] at hnamed
    exact absurd hnamed (by simp)
  | @inName before inst after q hpending hq hne hother =>
    obtain ⟨hmem, helig, -⟩ := mem_pending.mp
      (hpending ▸ List.mem_append_right before List.mem_cons_self : inst ∈ pending cli instances _)
    have hplain := hlisted.plain inst hmem helig
    by_cases hnil : q = []
    · rw [hnil, List.append_nil]
      exact hextend _ [] hpending (by simp) (Or.inl (by rw [List.append_nil]))
    · refine hextend _ [q] hpending ?_ (Or.inr ⟨by simp, ?_⟩)
      · intro q' hq'
        rw [List.mem_singleton.mp hq']
        exact ⟨⟨hnil, oneLine_of_prefix_name hplain hq⟩, not_isComplete_of_prefix_name hplain hq, hother⟩
      · rw [textOf_append, textOf_singleton, List.append_assoc, List.append_assoc]

theorem Reached.ledgerFile {out : Option KString} (h : Reached cli instances out) :
    LedgerFile cli instances out := by
  induction h with
  | start => exact Or.inl rfl
  | cut _ hs _ hsafe ih => exact ih.cut hlisted hrepeats hs hsafe

/-- A run that finishes leaves every eligible instance with all its rows. -/
theorem LedgerFile.main {out : Option KString} (h : LedgerFile cli instances out) (hs : Calm cli s instances)
    (hinst : inst ∈ instances) (helig : inst.Eligible cli) :
    (completeRows inst (main cli s instances out)).length = cli.repeats := by
  obtain ⟨base, hbase, htext, hnames, -⟩ := h.base hlisted
  have hledger := hbase.extend hs hlisted hrepeats hnames (List.append_nil _).symm
    fun q (hq : q ∈ []) => absurd hq List.not_mem_nil
  rw [List.append_nil] at hledger
  have hfile : kept out ++ written cli s instances out =
      textOf (header :: (base ++ (pending cli instances (alreadyDone out)).flatMap (block cli s))) := by
    rw [written, hs.instanceLoop, ← List.append_assoc, htext, ← textOf_append, List.cons_append]
  have hlines : dataLines (BenchmarkRunner.main cli s instances out) =
      base ++ (pending cli instances (alreadyDone out)).flatMap (block cli s) := by
    rw [dataLines, BenchmarkRunner.main, Option.elim_some, IsText.readLines (Or.inl hfile) hledger.whole]
    rfl
  rw [completeRows, hlines]
  refine ((hledger.counts inst hinst helig).resolve_right fun hnone => hnone ?_).2
  rw [List.map_append, List.mem_append]
  by_cases hdone : inst.path ∈ alreadyDone out
  · exact Or.inl ((hnames inst hinst helig).mp hdone)
  · refine Or.inr (name_mem_blocks hs hlisted (fun i hi => ?_) hrepeats
      (mem_pending.mpr ⟨hinst, helig, hdone⟩))
    obtain ⟨h₁, h₂, -⟩ := mem_pending.mp hi
    exact ⟨h₁, h₂⟩

/-- After any interruptions by safe cuts: what a restart skips has all its complete rows, what it
    measures has none, and the run that finishes leaves every eligible instance with exactly
    `repeats` complete rows. -/
theorem reached_spec {out : Option KString} (h : Reached cli instances out) (hinst : inst ∈ instances)
    (helig : inst.Eligible cli) :
    (inst.path ∈ alreadyDone out → (completeRows inst out).length = cli.repeats) ∧
      (inst.path ∉ alreadyDone out → completeRows inst out = []) ∧
      ∀ s, Calm cli s instances → (completeRows inst (main cli s instances out)).length = cli.repeats := by
  have hfile := h.ledgerFile hlisted hrepeats
  have hmem : inst.path ∈ alreadyDone out ↔ _ := mem_alreadyDone (hlisted.nonblank inst hinst helig)
  rw [hmem]
  refine ⟨fun hname => ?_, filter_eq_nil_of_name, fun s hs => hfile.main hlisted hrepeats hs hinst helig⟩
  exact ((hfile.ledger.counts inst hinst helig).resolve_right (not_not_intro hname)).2

end

end

/-! ### One instance with two repeats -/

def twoRepeats : CliArgs := ⟨0, 3000, "PI_DIST".toList, 2⟩

def cfi20 : Instance := ⟨"cfi".toList, "graphs/cfi/cfi-20".toList, .ok 200⟩

/-- Measurements that leave all other columns blank. -/
def blankSession : Session := fun _ _ => .ok ⟨List.replicate 50 [], by decide, by simp [Plain]⟩

theorem listed_cfi20 : Listed twoRepeats [cfi20] where
  nodup := by decide
  plain := by decide
  nonblank := by decide

theorem calm_blankSession : Calm twoRepeats blankSession [cfi20] := by
  intro inst hinst
  rw [List.mem_singleton.mp hinst]
  exact ⟨⟨200, rfl⟩, fun _ k _ _ => ⟨_, rfl, by decide +kernel⟩⟩

/-- A run cut inside the first name is resumed. -/
theorem reached_spec_cfi20 : (completeRows cfi20 (main twoRepeats blankSession [cfi20]
    (some (header ++ lineBreak ++ "cfi,graphs/cfi/c".toList)))).length = 2 := by
  have hsafe : SafeCut twoRepeats blankSession [cfi20] none
      (lead none ++ textOf [] ++ "cfi,graphs/cfi/c".toList) :=
    @SafeCut.inName _ _ _ _ [] cfi20 [] _ rfl (by decide) (by decide) (by decide)
  have hp : lead none ++ textOf [] ++ "cfi,graphs/cfi/c".toList <+:
      written twoRepeats blankSession [cfi20] none := by decide +kernel
  have hreached := Reached.start.cut calm_blankSession hp hsafe
  have hkept : kept none = [] := if_pos rfl
  have hlead : lead none = header ++ lineBreak := if_pos rfl
  rw [hkept, hlead, textOf, List.flatMap_nil, List.append_nil, List.nil_append] at hreached
  exact (reached_spec listed_cfi20 (by decide) hreached List.mem_cons_self
    ⟨200, rfl, by decide, by decide⟩).2.2 blankSession calm_blankSession

/-- A run cut between the two repeats is not: the second row is never written. -/
theorem completeRows_lost : Listed twoRepeats [cfi20] ∧ Calm twoRepeats blankSession [cfi20] ∧
    ∃ out, Interrupted twoRepeats blankSession [cfi20] none out ∧ cfi20.path ∈ alreadyDone out ∧
      (completeRows cfi20 (main twoRepeats blankSession [cfi20] out)).length = 1 := by
  refine ⟨listed_cfi20, calm_blankSession,
    some (header ++ lineBreak ++ ("cfi,graphs/cfi/cfi-20".toList ++ List.replicate 50 ',') ++ lineBreak), ?_, ?_⟩
  · exact Interrupted.cut (by decide +kernel)
  · decide +kernel

end Dialysis.BenchmarkRunner
