import Pfind.Program.Outcome
import Pfind.Text.Affix

/-!
# Reading the output back

The output of the program as a reader takes it: lines, of which the last ones are the summary.

* `readReport` : the matches, the count and the total size that a text reports.
* `readRecord_line` : **a record says which match it is for**, in the plain and in the long format,
  whatever blanks and digits its path begins with.
* `report_round_trip` : **what is read are the matches of the traversal**, with their sizes and
  paths, and the summary, unless a path has a newline in it.
-/

namespace Pfind

open Fs Text

/-! ### Lines -/

/-- The record of a match without its newline. -/
def Match.line (output : OutputConfig) (m : Match) : Bytes :=
  (if output.longFormat then fmtSize (m.size.getD 0) else []) ++ entryPath m.dir m.name

theorem Match.record_eq_line (output : OutputConfig) (m : Match) :
    m.record output = m.line output ++ [byte '\n'] := rfl

theorem fmtSize_eq (size : UInt64) : fmtSize size =
    List.replicate (12 - (decimal size.toNat).length) (byte ' ') ++ decimal size.toNat ++
      [byte ' ', byte ' '] := rfl

/-- The size and the path in a line of the long format. -/
def readLong (line : Bytes) : ℕ × Bytes :=
  let line := line.dropWhile fun b => b == byte ' '
  let digits := line.takeWhile isDigit
  (readDecimal digits, line.drop (digits.length + 2))

/-- **The long format is unambiguous** : a path may begin with blanks and digits. -/
theorem readLong_fmtSize (size : UInt64) (path : Bytes) :
    readLong (fmtSize size ++ path) = (size.toNat, path) := by
  have hdigit : ∀ b ∈ decimal size.toNat, isDigit b = true := fun b hb => isDigit_of_mem_decimal hb
  have hblank : isDigit (byte ' ') = false := by decide
  have hdrop : (fmtSize size ++ path).dropWhile (fun b => b == byte ' ') =
      decimal size.toNat ++ byte ' ' :: byte ' ' :: path := by
    rw [fmtSize_eq, List.append_assoc, List.append_assoc,
      List.dropWhile_append_of_pos (by simp)]
    refine dropWhile_of_bare fun b hb => ?_
    obtain ⟨d, ds, hd⟩ := List.exists_cons_of_ne_nil (decimal_ne_nil size.toNat)
    rw [hd] at hb hdigit
    obtain rfl : d = b := by simpa using hb
    have hdd := hdigit d List.mem_cons_self
    by_contra hne
    rw [Bool.not_eq_false, beq_iff_eq] at hne
    rw [hne, hblank] at hdd
    cases hdd
  have htake : (decimal size.toNat ++ byte ' ' :: byte ' ' :: path).takeWhile isDigit =
      decimal size.toNat := by
    rw [List.takeWhile_append_of_pos hdigit, List.takeWhile_cons, hblank]
    simp
  simp only [readLong, hdrop, htake, readDecimal_decimal, Prod.mk.injEq, true_and]
  -- behind the digits there are two blanks, whatever the width of the column
  rw [← List.drop_drop, List.drop_left]
  rfl

/-- The size, in the long format, and the path in a line. -/
def readRecord (output : OutputConfig) (line : Bytes) : Option ℕ × Bytes :=
  if output.longFormat then ((readLong line).1, (readLong line).2) else (none, line)

/-- What a record reports: the size, in the long format, and the path. -/
def Match.reported (output : OutputConfig) (m : Match) : Option ℕ × Bytes :=
  (if output.longFormat then some (m.size.getD 0).toNat else none, entryPath m.dir m.name)

/-- **A record says which match it is for.** -/
theorem readRecord_line (output : OutputConfig) (m : Match) :
    readRecord output (m.line output) = m.reported output := by
  unfold readRecord Match.line Match.reported
  split_ifs
  · rw [readLong_fmtSize]
  · rfl

/-- The same search with other output options. -/
def Scheduler.Search.withOutput (S : Search) (output : OutputConfig) : Search :=
  ⟨S.fs, S.root, S.filter, output⟩

theorem Scheduler.small_traverse (output : OutputConfig) :
    (small.withOutput output).traverse (small.withOutput output).root =
      [⟨[byte 'r'], [byte 'f'], if needSize small.filter output then some 3 else none⟩] := by
  have hdir : (small.withOutput output).traverse (byte 'r' :: "/d".toList.map byte) = [] := by
    rw [traverse_eq]
    rfl
  have hchildren : ((small.withOutput output).fs.listing [byte 'r']).filterMap
      ((small.withOutput output).childOf [byte 'r']) = [byte 'r' :: "/d".toList.map byte] := by
    show (small.fs.listing [byte 'r']).filterMap (small.childOf [byte 'r']) = _
    decide
  rw [show (small.withOutput output).root = [byte 'r'] from rfl, traverse_eq, hchildren,
    List.flatMap_singleton, hdir, List.append_nil]
  cases output with | mk countOnly sumSize longFormat => cases sumSize <;> cases longFormat <;> rfl

namespace Program

open Scheduler (Search)

/-! ### Reports -/

/-- What a text reports. -/
structure Report where
  /-- The size, in the long format, and the path of each match. -/
  found : List (Option ℕ × Bytes)
  /-- The number of matches. -/
  count : Option ℕ
  /-- The total size. -/
  total : Option ℕ
  deriving DecidableEq

/-- The number in the line `total: .. bytes`. -/
def readTotal (line : Bytes) : ℕ :=
  readDecimal ((line.drop "total: ".length).takeWhile isDigit)

/-- Take the last line off, if there is to be a summary line. -/
def splitSummary (asked : Bool) (read : Bytes → ℕ) (ls : List Bytes) : List Bytes × Option ℕ :=
  if asked then (ls.dropLast, ls.getLast?.map read) else (ls, none)

/-- Read the output of the program. -/
def readReport (output : OutputConfig) (text : Bytes) : Report :=
  let (ls, total) := splitSummary output.sumSize readTotal (lines (byte '\n') text)
  let (ls, count) := splitSummary output.countOnly readDecimal ls
  ⟨ls.map (readRecord output), count, total⟩

/-- The line of the total size, without its newline. -/
def totalBody (total : ℕ) : Bytes :=
  "total: ".toList.map byte ++ decimal total ++ " bytes".toList.map byte

theorem readTotal_totalBody (total : ℕ) : readTotal (totalBody total) = total := by
  have hblank : isDigit (byte ' ') = false := by decide
  have hdrop : (totalBody total).drop "total: ".length =
      decimal total ++ byte ' ' :: "bytes".toList.map byte := by
    have hb : " bytes".toList.map byte = byte ' ' :: "bytes".toList.map byte := by decide
    have hlen : ("total: ".toList.map byte).length = "total: ".length := by decide
    unfold totalBody
    generalize decimal total = ds
    rw [List.append_assoc, hb, List.drop_left' hlen]
  rw [readTotal, hdrop, List.takeWhile_append_of_pos fun b hb => isDigit_of_mem_decimal hb,
    List.takeWhile_cons, hblank]
  simp [readDecimal_decimal]

theorem splitSummary_append (asked : Bool) (read : Bytes → ℕ) (ls : List Bytes) (line : Bytes) :
    splitSummary asked read (ls ++ if asked then [line] else []) =
      (ls, if asked then some (read line) else none) := by
  unfold splitSummary
  split_ifs <;> simp

/-! ### The output as lines -/

variable {n : ℕ} [NeZero n] {S : Search}

/-- The lines of the output. -/
def outputLines (S : Search) (ms : List Match) : List Bytes :=
  ((if S.output.countOnly then [] else ms.map (Match.line S.output)) ++
      if S.output.countOnly then [decimal (S.traverse S.root).length] else []) ++
    if S.output.sumSize then
      [totalBody (((S.traverse S.root).map Scheduler.Match.bytes).sum % 2 ^ 64)] else []

omit [NeZero n] in
theorem records_eq_unlines (S : Search) (ms : List Match) : S.records ms =
    unlines (byte '\n') (if S.output.countOnly then [] else ms.map (Match.line S.output)) := by
  unfold Search.records Search.printed printed printPaths unlines
  cases S.output.countOnly with
  | true => simp
  | false => simp [List.flatMap_map, Match.record_eq_line]

omit [NeZero n] in
theorem output_eq_unlines (S : Search) (ms : List Match) :
    S.records ms ++ summary S = unlines (byte '\n') (outputLines S ms) := by
  have hcount : ∀ k, countText S k =
      unlines (byte '\n') (if S.output.countOnly then [decimal k] else []) := by
    intro k
    unfold countText countLine unlines
    split_ifs <;> simp
  have htotal : ∀ k, totalText S k =
      unlines (byte '\n') (if S.output.sumSize then [totalBody k] else []) := by
    intro k
    have hb : " bytes\n".toList.map byte = " bytes".toList.map byte ++ [byte '\n'] := by decide
    unfold totalText totalLine unlines totalBody
    rw [hb]
    split_ifs <;> simp
  rw [outputLines, unlines_append, unlines_append, ← records_eq_unlines, ← hcount, ← htotal,
    summary, List.append_assoc]

omit [NeZero n] in
theorem newline_not_mem_decimal (k : ℕ) : byte '\n' ∉ decimal k := fun h => by
  have := isDigit_of_mem_decimal h
  revert this
  decide

omit [NeZero n] in
theorem newline_not_mem_totalBody (k : ℕ) : byte '\n' ∉ totalBody k := by
  have hl : byte '\n' ∉ "total: ".toList.map byte := by decide
  have hr : byte '\n' ∉ " bytes".toList.map byte := by decide
  unfold totalBody
  rw [List.mem_append, List.mem_append]
  exact fun h => h.elim (fun h => h.elim hl (newline_not_mem_decimal k)) hr

omit [NeZero n] in
theorem newline_not_mem_fmtSize {size : UInt64} : byte '\n' ∉ fmtSize size := by
  intro hmem
  rw [fmtSize_eq] at hmem
  simp only [List.mem_append, List.mem_replicate, newline_not_mem_decimal, or_false] at hmem
  rcases hmem with ⟨-, hmem⟩ | hmem <;> revert hmem <;> decide

omit [NeZero n] in
theorem newline_not_mem_line {output : OutputConfig} {m : Match}
    (h : byte '\n' ∉ entryPath m.dir m.name) : byte '\n' ∉ m.line output := by
  unfold Match.line
  split_ifs
  · simp [newline_not_mem_fmtSize, h]
  · simpa using h

omit [NeZero n] in
theorem newline_not_mem_outputLines {ms : List Match}
    (h : ∀ m ∈ ms, byte '\n' ∉ entryPath m.dir m.name) :
    ∀ l ∈ outputLines S ms, byte '\n' ∉ l := by
  intro l hl
  simp only [outputLines, List.mem_append] at hl
  rcases hl with (hl | hl) | hl <;> split_ifs at hl
  · cases hl
  · obtain ⟨m, hm, rfl⟩ := List.mem_map.1 hl
    exact newline_not_mem_line (h m hm)
  · rw [List.mem_singleton.1 hl]
    exact newline_not_mem_decimal _
  · cases hl
  · rw [List.mem_singleton.1 hl]
    exact newline_not_mem_totalBody _
  · cases hl

/-- What a reader is to get from the output. -/
def reported (S : Search) (ms : List Match) : Report where
  found := if S.output.countOnly then [] else ms.map (Match.reported S.output)
  count := if S.output.countOnly then some (S.traverse S.root).length else none
  total := if S.output.sumSize then
    some (((S.traverse S.root).map Scheduler.Match.bytes).sum % 2 ^ 64) else none

omit [NeZero n] in
theorem readReport_output {ms : List Match} (h : ∀ m ∈ ms, byte '\n' ∉ entryPath m.dir m.name) :
    readReport S.output (S.records ms ++ summary S) = reported S ms := by
  rw [readReport, output_eq_unlines, lines_unlines (newline_not_mem_outputLines h), outputLines,
    splitSummary_append, readTotal_totalBody]
  dsimp only
  rw [splitSummary_append, readDecimal_decimal]
  simp only [reported, Report.mk.injEq, and_true]
  split_ifs
  · rfl
  · rw [List.map_map]
    exact List.map_congr_left fun m _ => readRecord_line S.output m

/-- **The output says what has been found.**  From the output of a process that has ended without
a failed write, line by line, a reader gets the path of every match of the traversal, each as often
as it is there, with its size in the long format, and the number of matches and their total size
where these are asked for, provided that no path has a newline in it. -/
theorem report_round_trip (S : Search)
    (hpath : ∀ m ∈ S.traverse S.root, byte '\n' ∉ entryPath m.dir m.name) {ls : List (Label n)}
    {s : State n} (h : (lts S).Run (.init S) ls s) (hend : s.exitCode.isSome = true)
    (hok : ∀ l ∈ ls, ¬ l.Failed) :
    ∃ ms : List Match, ms.Perm (S.traverse S.root) ∧
      readReport S.output s.stdout = reported S ms := by
  obtain ⟨ms, hms, hout⟩ := stdout_of_end h hend hok
  exact ⟨ms, hms, by rw [hout, readReport_output fun m hm => hpath m (hms.subset hm)]⟩

/-- The search of the small tree in the long format. -/
def smallLong : Search := Scheduler.small.withOutput ⟨false, true, true⟩

theorem smallLong_run : ∃ (ls : List (Label 2)) (s : State 2),
    (lts smallLong).Run (.init smallLong) ls s ∧ s.exitCode = some 0 ∧
      s.stdout = "           3  r/f\ntotal: 3 bytes\n".toList.map byte ∧ ∀ l ∈ ls, ¬ l.Failed :=
  run_of_outcome (show outcome smallLong (Scheduler.small.schedule.map some ++ [none, none, none]) =
    some (some 0, "           3  r/f\ntotal: 3 bytes\n".toList.map byte, true) by decide)

theorem newline_not_mem_smallLong :
    ∀ m ∈ smallLong.traverse smallLong.root, byte '\n' ∉ entryPath m.dir m.name := by
  rw [smallLong, Scheduler.small_traverse]
  decide

/-- The match has the size 3, which two workers print and a reader reads. -/
theorem report_round_trip_small :
    ∃ (ls : List (Label 2)) (s : State 2), (lts smallLong).Run (.init smallLong) ls s ∧
      s.stdout = "           3  r/f\ntotal: 3 bytes\n".toList.map byte ∧
      ∃ ms : List Match, ms.Perm (smallLong.traverse smallLong.root) ∧
        (readReport smallLong.output s.stdout).found =
          ms.map (Match.reported smallLong.output) := by
  obtain ⟨ls, s, hr, hend, hout, hok⟩ := smallLong_run
  obtain ⟨ms, hms, hrep⟩ := report_round_trip smallLong newline_not_mem_smallLong hr
    (by rw [hend]; rfl) hok
  exact ⟨ls, s, hr, hout, ms, hms, by rw [hrep]; rfl⟩

end Program

end Pfind
