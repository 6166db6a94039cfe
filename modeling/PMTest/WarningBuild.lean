import PMTest.History
import PMTest.Segments

/-!
# The build with warnings

Compiled with warnings, the checker looks a flushed range up before it removes it
from the persist set, and looks a logged range up before it adds it. Neither lookup
changes the byte state, so the two builds go through the same states and differ in
the warnings alone.

A warning is printed for a flush of clean bytes and for an add that overlaps an
earlier one. Which bytes are clean and which ranges were added is read off the
trace.
-/

namespace PMTest

open Intervals Lookahead

namespace ByteState

variable (memory : Ptr → Metadata) (cur : Ptr) (v : ByteState)

/-- What a record without a warning prints does not depend on the build. -/
theorem lines_warn (unflushed : (memory cur).type ≠ .flush)
    (unlogged : (memory cur).type ≠ .transactionAdd) :
    v.lines true memory cur = v.lines false memory cur := by
  unfold lines
  cases type : (memory cur).type with
  | flush => exact absurd type unflushed
  | transactionAdd => exact absurd type unlogged
  | _ => rfl

/-- The plain build prints no warning. There is one case for each type of record. -/
theorem not_warning_of_mem_lines :
    ∀ line ∈ v.lines false memory cur, line.report.isWarning = false := by
  have own (reports : List Report) (checked : Ptr)
      (plain : ∀ report ∈ reports, report.isWarning = false) :
      ∀ line ∈ reports.map (Line.mk cur checked), line.report.isWarning = false := by
    intro line member
    obtain ⟨report, printed, rfl⟩ := List.mem_map.mp member
    exact plain report printed
  have persists (m : Metadata) : ∀ report ∈ v.persistReports m, report.isWarning = false := by
    intro report printed
    obtain ⟨lower, upper, rfl⟩ := (v.persistReports_single m).2 report printed
    rfl
  unfold lines
  cases (memory cur).type with
  | assign =>
    apply own
    unfold assignReports
    split_ifs <;> simp [Report.isWarning, Report.isFlushWarning, Report.isTransactionAddWarning]
  | flush => simp [flushReports]
  | transactionAdd => simp [addReports]
  | persist => exact own _ _ (persists _)
  | order =>
    apply own
    unfold orderReports
    split_ifs <;> simp [Report.isWarning, Report.isFlushWarning, Report.isTransactionAddWarning]
  | transactionEnd =>
    intro line member
    split_ifs at member with outermost
    · obtain ⟨stored, _, printed⟩ := List.mem_flatMap.mp member
      exact own _ _ (persists _) line printed
    · exact absurd member List.not_mem_nil
  | _ => simp

/-- Both builds print the same lines up to warnings. -/
theorem lines_without_warnings :
    (v.lines true memory cur).filter (fun line => !line.report.isWarning) =
      v.lines false memory cur := by
  have plain := v.not_warning_of_mem_lines memory cur
  by_cases flush : (memory cur).type = .flush
  · simp only [lines, flush, flushReports]
    split_ifs <;> simp_all [Report.isWarning, Report.isFlushWarning]
  · by_cases add : (memory cur).type = .transactionAdd
    · simp only [lines, add, addReports]
      split_ifs <;> simp_all [Report.isWarning, Report.isTransactionAddWarning]
    · rw [v.lines_warn memory cur flush add]
      apply List.filter_eq_self.mpr
      intro line printed
      rw [plain line printed]
      rfl

/-- Every warning is about an effective flush of clean bytes, or about an add that
counts and overlaps an earlier one. -/
theorem warning_cases {line : Line} (printed : line ∈ v.lines true memory cur)
    (warning : line.report.isWarning = true) :
    ((memory cur).type = .flush ∧ (v.Effective (memory cur) ∧
      Disjoint (memory cur).bytes v.dirty) ∧ line.report.isTransactionAddWarning = false) ∨
    ((memory cur).type = .transactionAdd ∧ ((0 < v.depth ∧ 0 < (memory cur).size) ∧
      ¬ Disjoint (memory cur).bytes v.added) ∧ line.report.isFlushWarning = false) := by
  by_cases flush : (memory cur).type = .flush
  · simp only [lines, flush, flushReports] at printed
    split_ifs at printed with clean
    · obtain rfl := List.mem_singleton.mp printed
      exact .inl ⟨flush, clean.2, rfl⟩
    · exact absurd printed List.not_mem_nil
  · by_cases add : (memory cur).type = .transactionAdd
    · simp only [lines, add, addReports] at printed
      split_ifs at printed with overlap
      · obtain rfl := List.mem_singleton.mp printed
        exact .inr ⟨add, overlap.2, rfl⟩
      · exact absurd printed List.not_mem_nil
    · rw [v.lines_warn memory cur flush add] at printed
      have plain := v.not_warning_of_mem_lines memory cur line printed
      exact absurd (warning.symm.trans plain) (by decide)

/-- A flush warning is printed exactly for an effective flush of clean bytes. -/
theorem flush_warning_iff :
    (∃ line ∈ v.lines true memory cur, line.report.isFlushWarning = true) ↔
      (memory cur).type = .flush ∧ v.Effective (memory cur) ∧
        Disjoint (memory cur).bytes v.dirty := by
  constructor
  · rintro ⟨line, printed, warning⟩
    have either := v.warning_cases memory cur printed (by simp [Report.isWarning, warning])
    cases either with
    | inl flush => exact ⟨flush.1, flush.2.1⟩
    | inr add => exact absurd (warning.symm.trans add.2.2) (by decide)
  · rintro ⟨flush, clean⟩
    simp only [lines, flush, flushReports, if_pos (And.intro rfl clean)]
    exact ⟨_, List.mem_singleton_self _, rfl⟩

/-- A warning about a logged range is printed exactly for an add that counts and
overlaps an earlier one. -/
theorem add_warning_iff :
    (∃ line ∈ v.lines true memory cur, line.report.isTransactionAddWarning = true) ↔
      (memory cur).type = .transactionAdd ∧ (0 < v.depth ∧ 0 < (memory cur).size) ∧
        ¬ Disjoint (memory cur).bytes v.added := by
  constructor
  · rintro ⟨line, printed, warning⟩
    have either := v.warning_cases memory cur printed (by simp [Report.isWarning, warning])
    cases either with
    | inl flush => exact absurd (warning.symm.trans flush.2.2) (by decide)
    | inr add => exact ⟨add.1, add.2.1⟩
  · rintro ⟨add, overlap⟩
    simp only [lines, add, addReports, if_pos (And.intro rfl overlap)]
    exact ⟨_, List.mem_singleton_self _, rfl⟩

end ByteState

variable (icl : Icl) (t : Trace)

/-- The two builds go through the same byte states and print the same lines up to
warnings. -/
theorem builds_agree (memory : Ptr → Metadata) (later items : List Ptr) (v : ByteState) :
    run (ByteState.machine true memory) later items v =
        run (ByteState.machine false memory) later items v ∧
      (output (ByteState.machine true memory) later items v).filter
          (fun line => !line.report.isWarning) =
        output (ByteState.machine false memory) later items v := by
  apply simulate_same (ByteState.machine true memory) (ByteState.machine false memory) Eq
    (concatenates_filter _) later later _ items v v rfl
  rintro x rest v _ rfl
  unfold ByteState.machine
  split_ifs with skipped
  · exact ⟨rfl, rfl⟩
  · exact ⟨rfl, v.lines_without_warnings memory x⟩

/-- A range meets a logged byte exactly if it meets the range of an earlier add
inside a transaction. -/
theorem meets_added_iff {v : ByteState} {position : Nat}
    (summary : Summarises t.records position v) (m : Metadata) :
    ¬ Disjoint m.bytes v.added ↔ ∃ i < position, ∃ n, t.records[i]? = some n ∧
      n.type = .transactionAdd ∧ 0 < depthBefore t.records i ∧ ¬ Disjoint m.bytes n.bytes := by
  rw [Set.not_disjoint_iff]
  constructor
  · rintro ⟨b, inside, logged⟩
    obtain ⟨i, before, n, found, add, member, opened⟩ := (summary.added b).mp logged
    exact ⟨i, before, n, found, add, opened, Set.not_disjoint_iff.mpr ⟨b, inside, member⟩⟩
  · rintro ⟨i, before, n, found, add, opened, meets⟩
    obtain ⟨b, inside, member⟩ := Set.not_disjoint_iff.mp meets
    exact ⟨b, inside, (summary.added b).mpr ⟨i, before, n, found, add, member, opened⟩⟩

variable {t} {position : Nat} {cur : Ptr} (found : t.veriptr[position]? = some cur)
include found

/-- When the warning build prints a flush warning for a record. -/
theorem printed_flush_warning_iff :
    (∃ line ∈ printedBy icl true t cur, line.report.isFlushWarning = true) ↔
      (t.memory cur).type = .flush ∧ 0 < (t.memory cur).size ∧ FencedAfter t.records position ∧
        Disjoint (t.memory cur).bytes (excludedBefore t.records position) ∧
        ∀ b ∈ (t.memory cur).bytes, b ∉ icl.toSet (persistInfoBefore icl true t position) := by
  have summary := summarises_found t true found
  have fenced := skipped_iff t position cur
  rw [printedBy_eq icl true t position cur found, toSet_persistInfoBefore, ← summary.excluded]
  by_cases skipped : t.Skipped position cur
  · rw [if_pos skipped]
    exact iff_of_false (by simp) fun all => (fenced.mp skipped).2 all.2.2.1
  · rw [if_neg skipped, ByteState.flush_warning_iff]
    constructor
    · rintro ⟨flush, ⟨sized, included⟩, clean⟩
      have later : FencedAfter t.records position := by
        by_contra unfenced
        exact skipped (fenced.mpr ⟨flush, unfenced⟩)
      exact ⟨flush, sized, later, included, fun b inside => Set.disjoint_left.mp clean inside⟩
    · rintro ⟨flush, sized, _, included, clean⟩
      exact ⟨flush, ⟨sized, included⟩, Set.disjoint_left.mpr clean⟩

/-- When the warning build prints a warning about a logged range for a record. -/
theorem printed_add_warning_iff :
    (∃ line ∈ printedBy icl true t cur, line.report.isTransactionAddWarning = true) ↔
      (t.memory cur).type = .transactionAdd ∧ 0 < (t.memory cur).size ∧
        0 < depthBefore t.records position ∧
        ∃ i < position, ∃ n, t.records[i]? = some n ∧ n.type = .transactionAdd ∧
          0 < depthBefore t.records i ∧ ¬ Disjoint (t.memory cur).bytes n.bytes := by
  have summary := summarises_found t true found
  rw [printedBy_eq icl true t position cur found, ← meets_added_iff t summary, ← summary.depth]
  by_cases skipped : t.Skipped position cur
  · rw [if_pos skipped]
    apply iff_of_false (by simp)
    exact fun all => absurd (all.1.symm.trans skipped.1) (by decide)
  · rw [if_neg skipped, ByteState.add_warning_iff]
    constructor
    · rintro ⟨add, ⟨opened, sized⟩, overlap⟩
      exact ⟨add, sized, opened, overlap⟩
    · rintro ⟨add, sized, opened, overlap⟩
      exact ⟨add, ⟨opened, sized⟩, overlap⟩

omit found
variable (t)

/-- Without the warnings, the output of the warning build is that of the plain
build, line by line, and so is the message about unmatched transactions. A flush
warning is printed exactly for a flush that has a size, is fenced later, avoids the
excluded bytes and covers no byte of the persist set. The other warning is printed
exactly for an add that has a size, is inside a transaction and meets the range of
an earlier one. -/
theorem warning_build_agrees :
    ((veriProc icl true t.memory t.veriptr).stdout.filter fun line => !line.report.isWarning) =
      (veriProc icl false t.memory t.veriptr).stdout ∧
    (veriProc icl true t.memory t.veriptr).transactionEndError =
      (veriProc icl false t.memory t.veriptr).transactionEndError ∧
    ∀ position cur, t.veriptr[position]? = some cur →
      ((∃ line ∈ printedBy icl true t cur, line.report.isFlushWarning = true) ↔
        (t.memory cur).type = .flush ∧ 0 < (t.memory cur).size ∧
          FencedAfter t.records position ∧
          Disjoint (t.memory cur).bytes (excludedBefore t.records position) ∧
          ∀ b ∈ (t.memory cur).bytes, b ∉ icl.toSet (persistInfoBefore icl true t position)) ∧
      ((∃ line ∈ printedBy icl true t cur, line.report.isTransactionAddWarning = true) ↔
        (t.memory cur).type = .transactionAdd ∧ 0 < (t.memory cur).size ∧
          0 < depthBefore t.records position ∧
          ∃ i < position, ∃ n, t.records[i]? = some n ∧ n.type = .transactionAdd ∧
            0 < depthBefore t.records i ∧ ¬ Disjoint (t.memory cur).bytes n.bytes) := by
  refine ⟨?_, ?_, fun position cur found =>
    ⟨printed_flush_warning_iff icl found, printed_add_warning_iff icl found⟩⟩
  · rw [(veriProc_refines icl true t).1, (veriProc_refines icl false t).1]
    exact (builds_agree t.memory [] t.veriptr ByteState.initial).2
  · have same : t.before true t.veriptr.length = t.before false t.veriptr.length :=
      (builds_agree t.memory _ _ _).1
    rw [transactionEndError_eq, transactionEndError_eq, same]

/-- A transaction logs a range twice and flushes a range that nobody wrote. -/
def needlessWork : Trace := .ofRecords
  [{ type := .transactionBegin }, { type := .transactionAdd, addr := 0, size := 4 },
    { type := .transactionAdd, addr := 2, size := 4 }, { type := .flush, addr := 16, size := 4 },
    { type := .fence }, { type := .transactionEnd }]

/-- The plain build finds nothing to report. -/
theorem warning_build_agrees_needless_work :
    (veriProc (Segments.segments Nat Int) true needlessWork.memory needlessWork.veriptr).stdout =
      [⟨2, 2, .transactionAddWarning [] 0 2 6⟩, ⟨3, 3, .flushWarning [] 0 16 20⟩] ∧
    (veriProc (Segments.segments Nat Int) false needlessWork.memory needlessWork.veriptr).stdout =
      [] ∧
    FencedAfter needlessWork.records 3 := by
  have printed : (veriProc (Segments.segments Nat Int) true needlessWork.memory
      needlessWork.veriptr).stdout =
        [⟨2, 2, .transactionAddWarning [] 0 2 6⟩, ⟨3, 3, .flushWarning [] 0 16 20⟩] := by decide
  obtain ⟨same, _, warned⟩ := warning_build_agrees (Segments.segments Nat Int) needlessWork
  rw [printed] at same
  obtain ⟨_, _, fenced, _⟩ := (warned 3 3 rfl).1.mp (by
    rw [printedBy, printed]
    decide)
  exact ⟨printed, same.symm, fenced⟩

end PMTest
