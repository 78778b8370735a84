import Pfind.Program.Report
import Pfind.Scheduler.Paths

/-!
# The count of the benchmark harness (`benchmark.py`)

The harness compares tools by the number of their results.  It is not told which of its commands
print paths and which print a number, and guesses from the output (`count_results`).

* `countResults_countLine` : the output of `-c` is taken for the number that it is.
* `countResults_of_mem` : a text that is not one number is counted by its newlines.
* `counts_agree` : **with `-c` and without the harness gets the same count**, up to newlines in
  the paths.
-/

namespace Pfind

open Fs Text

namespace Benchmark

/-- What `bytes.strip` removes: space, `\t`, `\n`, `\v`, `\f` and `\r`. -/
def isSpace (b : UInt8) : Bool := b == byte ' ' || 9 ≤ b && b ≤ 13

/-- `bytes.isdigit`. -/
def isdigit (s : Bytes) : Bool := !s.isEmpty && s.all isDigit

/-- The number of digits up to which `int` reads a text. -/
def maxStrDigits : ℕ := 4300

/-- `int(s)` for digits, or a `ValueError`. -/
def int (s : Bytes) : Option ℕ :=
  if s.length ≤ maxStrDigits then some (readDecimal s) else none

/-- `count_results`. -/
def countResults (stdout : Bytes) : ℕ :=
  if stdout.isEmpty then 0
  else
    let s := trim isSpace stdout
    if isdigit s then (int s).getD (stdout.count (byte '\n'))
    else stdout.count (byte '\n')

variable {stdout : Bytes}

theorem countResults_of_mem {b : UInt8} (hb : b ∈ stdout) (hspace : isSpace b = false)
    (hdigit : isDigit b = false) : countResults stdout = stdout.count (byte '\n') := by
  have hne : stdout.isEmpty = false := List.isEmpty_eq_false_iff.2 (List.ne_nil_of_mem hb)
  have hall : (trim isSpace stdout).all isDigit = false :=
    List.all_eq_false.2 ⟨b, mem_trim hb hspace, by rw [hdigit]; decide⟩
  simp [countResults, isdigit, hne, hall]

theorem isSpace_of_isDigit {b : UInt8} (h : isDigit b = true) : isSpace b = false := by
  have hall : ∀ k < 58, 48 ≤ k → isSpace (UInt8.ofNat k) = false := by decide
  simp only [isDigit, Bool.and_eq_true, decide_eq_true_eq, UInt8.le_iff_toNat_le] at h
  have hb := hall b.toNat (Nat.lt_succ_of_le h.2) h.1
  rwa [UInt8.ofNat_toNat] at hb

theorem int_decimal {k : ℕ} (hk : k < 2 ^ 64) : int (decimal k) = some k := by
  have hlen : (decimal k).length ≤ 20 := by
    rw [decimal, List.length_map, Nat.length_toDigits_le_iff (by decide) (by decide)]
    omega
  rw [int, if_pos (by unfold maxStrDigits; omega), readDecimal_decimal]

/-- **The output of `-c` is taken for the number that it is.** -/
theorem countResults_countLine {k : ℕ} (hk : k < 2 ^ 64) :
    countResults (Program.countLine k) = k := by
  have hdigits : ∀ b ∈ decimal k, isDigit b = true := fun b hb => isDigit_of_mem_decimal hb
  have hbare : ∀ b ∈ decimal k, isSpace b = false := fun b hb => isSpace_of_isDigit (hdigits b hb)
  have hnewline : ∀ b ∈ [byte '\n'], isSpace b = true := by
    intro b hb
    rw [List.mem_singleton.1 hb]
    decide
  have htrim : trim isSpace (Program.countLine k) = decimal k :=
    trim_append (r := []) (by simp) (fun b hb => hbare b (List.mem_of_mem_head? hb))
      (ends_of_forall hbare) (Or.inl (decimal_ne_nil k)) hnewline
  have hne : (Program.countLine k).isEmpty = false := by simp [Program.countLine]
  have hisdigit : isdigit (decimal k) = true := by
    rw [isdigit, List.isEmpty_eq_false_iff.2 (decimal_ne_nil k), List.all_eq_true.2 hdigits]
    rfl
  simp [countResults, hne, htrim, hisdigit, int_decimal hk]

end Benchmark

namespace Scheduler

variable {S : Search} {dir : PathBuf} {m : Match}

/-- The search with `-c`. -/
def Search.counting (S : Search) : Search :=
  S.withOutput { S.output with countOnly := true }

theorem traverse_counting (dir : PathBuf) : S.counting.traverse dir = S.traverse dir := rfl

theorem ne_nil_of_mem_preorder {root : PathBuf} (hroot : root ≠ [])
    (h : dir ∈ S.tree.preorder root) : dir ≠ [] := by
  induction root using S.tree.induction with
  | h root ih =>
    rw [Unfolding.preorder_eq, List.mem_cons, List.mem_flatMap] at h
    rcases h with rfl | ⟨c, hc, hd⟩
    · exact hroot
    · obtain ⟨e, -, -, rfl⟩ := mem_children hc
      refine ih _ hc ?_ hd
      unfold PathBuf.push
      split_ifs with habs
      · rintro hnil
        rw [hnil] at habs
        cases habs
      · simp
      · simp [hroot]

theorem dir_of_mem_traverse (h : m ∈ S.traverse dir) : m.dir ∈ S.tree.preorder dir := by
  obtain ⟨d, hd, hm⟩ := List.mem_flatMap.1 h
  obtain ⟨o, -, ho⟩ := List.mem_filterMap.1 hm
  cases o with
  | none => cases ho
  | some e => rwa [(matchOf_some ho).1]

theorem sep_mem_entryPath (hdir : dir ≠ []) (name : Bytes) : byte '/' ∈ entryPath dir name := by
  unfold entryPath
  by_cases hlast : dir.getLast? = some (byte '/')
  · simp [List.mem_of_getLast? hlast]
  · simp [needsSep, hlast, List.isEmpty_eq_false_iff.2 hdir]

end Scheduler

namespace Program

open Benchmark Scheduler

variable {S : Search}

theorem count_records (hplain : S.output.countOnly = false) (ms : List Match) :
    (S.records ms).count (byte '\n') =
      ms.length + (ms.map fun m => (entryPath m.dir m.name).count (byte '\n')).sum := by
  have hline : ∀ m ∈ ms, (List.count (byte '\n') ∘ Match.line S.output) m =
      (entryPath m.dir m.name).count (byte '\n') := by
    intro m _
    rw [Function.comp_apply, Match.line, List.count_append, Nat.add_eq_right]
    split_ifs
    · exact List.count_eq_zero.2 newline_not_mem_fmtSize
    · rfl
  rw [records_eq_unlines, hplain, if_neg Bool.false_ne_true, count_unlines, List.length_map,
    List.map_map, List.map_congr_left hline]

theorem countResults_records (hroot : S.root ≠ []) (hplain : S.output.countOnly = false)
    {ms : List Match} (hms : ms ⊆ S.traverse S.root) :
    countResults (S.records ms) = (S.records ms).count (byte '\n') := by
  cases ms with
  | nil => rfl
  | cons m ms =>
    have hsep := sep_mem_entryPath (ne_nil_of_mem_preorder hroot
      (dir_of_mem_traverse (hms List.mem_cons_self))) m.name
    refine countResults_of_mem (b := byte '/') ?_ (by decide) (by decide)
    simp [Search.records, Search.printed, printed, printPaths, hplain, Match.record, hsep]

theorem countResults_counted (hcountOnly : S.output.countOnly = true)
    (hsum : S.output.sumSize = false) (hcount : (S.traverse S.root).length < 2 ^ 64)
    {n : ℕ} [NeZero n] {ls : List (Label n)} {s : State n} (h : (lts S).Run (.init S) ls s)
    (hend : s.exitCode.isSome = true) (hok : ∀ l ∈ ls, ¬ l.Failed) :
    countResults s.stdout = (S.traverse S.root).length := by
  obtain ⟨ms, -, hout⟩ := stdout_of_end h hend hok
  have hrecords : S.records ms = [] := by rw [records_eq_unlines, hcountOnly]; rfl
  have hsummary : summary S = countLine (S.traverse S.root).length := by
    simp [summary, countText, totalText, hcountOnly, hsum]
  rw [hout, hrecords, hsummary, List.nil_append, countResults_countLine hcount]

/-- From the paths printed it gets one more for each newline in them. -/
theorem countResults_listed (hroot : S.root ≠ []) (hplain : S.output.countOnly = false)
    (hsum : S.output.sumSize = false) {n : ℕ} [NeZero n] {ls : List (Label n)} {s : State n}
    (h : (lts S).Run (.init S) ls s) (hend : s.exitCode.isSome = true)
    (hok : ∀ l ∈ ls, ¬ l.Failed) :
    countResults s.stdout = (S.traverse S.root).length +
      ((S.traverse S.root).map fun m => (entryPath m.dir m.name).count (byte '\n')).sum := by
  obtain ⟨ms, hms, hout⟩ := stdout_of_end h hend hok
  have hsummary : summary S = [] := by simp [summary, countText, totalText, hplain, hsum]
  rw [hout, hsummary, List.append_nil, countResults_records hroot hplain hms.subset,
    count_records hplain, hms.length_eq, (hms.map _).sum_eq]

/-- **With `-c` and without the harness gets the same count**, up to newlines in the paths.  From
the output of a process with `-c` it gets the number of matches, and from that of a process
without the same number and one more for each newline in a path, however many workers the two
have. -/
theorem counts_agree (S : Search) (hroot : S.root ≠ []) (hplain : S.output.countOnly = false)
    (hsum : S.output.sumSize = false) (hcount : (S.traverse S.root).length < 2 ^ 64)
    {n n' : ℕ} [NeZero n] [NeZero n'] {ls : List (Label n)} {ls' : List (Label n')}
    {s : State n} {s' : State n'} (h : (lts S.counting).Run (.init S.counting) ls s)
    (h' : (lts S).Run (.init S) ls' s') (hend : s.exitCode.isSome = true)
    (hend' : s'.exitCode.isSome = true) (hok : ∀ l ∈ ls, ¬ l.Failed)
    (hok' : ∀ l ∈ ls', ¬ l.Failed) :
    countResults s.stdout = (S.traverse S.root).length ∧
      countResults s'.stdout = (S.traverse S.root).length +
        ((S.traverse S.root).map fun m => (entryPath m.dir m.name).count (byte '\n')).sum := by
  have htraverse : S.counting.traverse S.counting.root = S.traverse S.root :=
    traverse_counting S.root
  rw [← htraverse] at hcount
  refine ⟨?_, countResults_listed hroot hplain hsum h' hend' hok'⟩
  exact (countResults_counted (S := S.counting) rfl hsum hcount h hend hok).trans
    (congrArg List.length htraverse)

/-- The search of the small tree for the paths of files. -/
def smallPaths : Search := Scheduler.small.withOutput ⟨false, false, false⟩

/-- One worker counts the one file, and two workers print its path. -/
theorem counts_agree_small :
    ∃ (s : State 1) (s' : State 2), s.stdout = "1\n".toList.map byte ∧
      s'.stdout = "r/f\n".toList.map byte ∧
      countResults s.stdout = (smallPaths.traverse smallPaths.root).length := by
  obtain ⟨ls, s, hr, hend, hout, hok⟩ := run_of_outcome
    (show outcome (n := 1) smallPaths.counting (List.replicate 26 (some 0) ++ [none, none, none]) =
      some (some 0, "1\n".toList.map byte, true) by decide)
  obtain ⟨ls', s', hr', hend', hout', hok'⟩ := run_of_outcome
    (show outcome smallPaths (Scheduler.small.schedule.map some ++ [none, none, none]) =
      some (some 0, "r/f\n".toList.map byte, true) by decide)
  have hlen : (smallPaths.traverse smallPaths.root).length = 1 := by
    rw [smallPaths, small_traverse, List.length_singleton]
  exact ⟨s, s', hout, hout', (counts_agree smallPaths (by decide) rfl rfl (by omega) hr hr'
    (by rw [hend]; rfl) (by rw [hend']; rfl) hok hok').1⟩

end Program

end Pfind
