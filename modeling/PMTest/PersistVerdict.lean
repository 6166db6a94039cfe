import PMTest.History
import PMTest.Segments

/-!
# The verdict of a persist check

A persist check looks at the bytes of one range in front of one position. It
fails when the range avoids the excluded bytes and holds a byte that was assigned
and not flushed since, where a flush counts only if some fence follows it in the
trace. The message names the lowest run of such bytes inside the range.

The end of an outermost transaction makes the same check for the assigns of the
transaction. What is said about the nesting itself comes from the final depth
alone, which a stray end lowers and a later begin makes up for.
-/

namespace PMTest

open Intervals Lookahead

section Verdict

variable (icl : Icl) (warn : Bool) (t : Trace)

/-- The bytes of a range that were assigned and not flushed since. -/
def unflushedIn (records : List Metadata) (position : Nat) (m : Metadata) : Set Nat :=
  { b | b ∈ m.bytes ∧ Unflushed records position b }

/-- The check of a range reads the history of its bytes. -/
theorem persist_reports_of_summary {records : List Metadata} {position : Nat} {v : ByteState}
    (summary : Summarises records position v) (m : Metadata) :
    (∃ run, IsLowestRun (unflushedIn records position m) m.addrinterval run ∧
      v.persistReports m = [.persistError m.filenameTemp m.lineNum run.lower run.upper] ∧
      Disjoint m.bytes (excludedBefore records position)) ∨
    (v.persistReports m = [] ∧ (Disjoint m.bytes (excludedBefore records position) →
      ∀ b ∈ m.bytes, ¬ Unflushed records position b)) := by
  have dirty : m.bytes ∩ v.dirty = unflushedIn records position m := by
    ext b
    exact and_congr_right fun _ => summary.dirty b
  have cases := v.persistReports_cases m
  rw [dirty, summary.excluded] at cases
  refine cases.imp_right fun ⟨silent, clean⟩ => ⟨silent, fun included b inside unflushed => ?_⟩
  exact Set.disjoint_left.mp (clean included) inside ((summary.dirty b).mpr unflushed)

/-- The check reports an error exactly when the range avoids the excluded bytes
and holds an unflushed one. -/
theorem persist_reports_iff {records : List Metadata} {position : Nat} {v : ByteState}
    (summary : Summarises records position v) (m : Metadata) :
    (∃ report ∈ v.persistReports m, report.isPersistError = true) ↔
      Disjoint m.bytes (excludedBefore records position) ∧
        ∃ b ∈ m.bytes, Unflushed records position b := by
  rcases persist_reports_of_summary summary m with
    ⟨run, lowest, reports, included⟩ | ⟨silent, clean⟩
  · obtain ⟨b, inside, _⟩ := lowest.meets
    obtain ⟨member, unflushed⟩ := lowest.run.inside inside
    rw [reports]
    exact iff_of_true ⟨_, List.mem_singleton_self _, rfl⟩ ⟨included, b, member, unflushed⟩
  · rw [silent]
    apply iff_of_false (fun ⟨_, member, _⟩ => List.not_mem_nil member)
    rintro ⟨included, b, member, unflushed⟩
    exact clean included b member unflushed

/-- A persist query prints the reports of its own check. -/
theorem printedBy_persist {position : Nat} {cur : Ptr} (found : t.veriptr[position]? = some cur)
    (query : (t.memory cur).type = .persist) :
    printedBy icl warn t cur =
      ((t.before warn position).persistReports (t.memory cur)).map (Line.mk cur cur) := by
  rw [printedBy_of_ne_flush icl warn t found (by simp [query]), ByteState.lines, query]

/-- A persist query prints an error exactly when its range avoids the excluded bytes and
holds an unflushed one, in terms of the history of its trace. -/
theorem query_reports_iff {position : Nat} {cur : Ptr} (found : t.veriptr[position]? = some cur)
    (query : (t.memory cur).type = .persist) :
    (∃ line ∈ printedBy icl warn t cur, line.report.isPersistError = true) ↔
      Disjoint (t.memory cur).bytes (excludedBefore t.records position) ∧
        ∃ b ∈ (t.memory cur).bytes, Unflushed t.records position b := by
  rw [← persist_reports_iff (summarises_found t warn found),
    printedBy_persist icl warn t found query]
  simp

/-- A persist query reports an error exactly when its range avoids the excluded
bytes and holds a byte with an effective assign that no effective fenced flush
follows. It prints one line at most, and the printed range is the lowest maximal
run of such bytes inside the queried range. -/
theorem persist_verdict (position : Nat) (cur : Ptr) (found : t.veriptr[position]? = some cur)
    (query : (t.memory cur).type = .persist) :
    ((∃ line ∈ printedBy icl warn t cur, line.report.isPersistError = true) ↔
      Disjoint (t.memory cur).bytes (excludedBefore t.records position) ∧
        ∃ b ∈ (t.memory cur).bytes, Unflushed t.records position b) ∧
    (printedBy icl warn t cur).length ≤ 1 ∧
    ∀ line ∈ printedBy icl warn t cur, ∃ run,
      IsLowestRun (unflushedIn t.records position (t.memory cur)) (t.memory cur).addrinterval run ∧
        line = ⟨cur, cur, .persistError (t.memory cur).filenameTemp (t.memory cur).lineNum
          run.lower run.upper⟩ := by
  refine ⟨query_reports_iff icl warn t found query, ?_⟩
  rw [printedBy_persist icl warn t found query]
  rcases persist_reports_of_summary (summarises_found t warn found) (t.memory cur) with
    ⟨run, lowest, reports, _⟩ | ⟨silent, _⟩
  · rw [reports]
    exact ⟨le_refl 1, fun line member => ⟨run, lowest, List.mem_singleton.mp member⟩⟩
  · rw [silent]
    exact ⟨Nat.zero_le 1, fun line member => absurd member List.not_mem_nil⟩

/-- The records of a trace whose query finds two unflushed runs in its range. -/
def partlyFlushed : Trace := .ofRecords
  [{ type := .assign, addr := 0, size := 8 }, { type := .flush, addr := 2, size := 2 },
    { type := .fence }, { type := .persist, addr := 0, size := 8 }]

/-- Only the first of the two runs is printed. -/
theorem persist_verdict_partly_flushed :
    printedBy (Segments.segments Nat Int) false partlyFlushed 3 =
      [⟨3, 3, .persistError [] 0 0 2⟩] ∧
    ∃ b ∈ (partlyFlushed.memory 3).bytes, Unflushed partlyFlushed.records 3 b := by
  have printed : printedBy (Segments.segments Nat Int) false partlyFlushed 3 =
      [⟨3, 3, .persistError [] 0 0 2⟩] := by decide
  have verdict := (persist_verdict (Segments.segments Nat Int) false partlyFlushed 3 3 rfl rfl).1
  exact ⟨printed, (verdict.mp ⟨_, printed ▸ List.mem_singleton_self _, rfl⟩).2⟩

end Verdict

section TransactionEnd

variable (icl : Icl) (warn : Bool) (t : Trace)

/-- A transaction end that closes the outermost transaction prints the reports of
the stored assigns, and any other one prints nothing. -/
theorem printedBy_end {position : Nat} {cur : Ptr} (found : t.veriptr[position]? = some cur)
    (ends : (t.memory cur).type = .transactionEnd) :
    printedBy icl warn t cur =
      if depthBefore t.records position = 1 then
        (storedBefore t position).flatMap fun stored =>
          ((t.before warn position).persistReports (t.memory stored)).map (Line.mk cur stored)
      else [] := by
  have stored := stored_before t warn position (List.getElem?_eq_some_iff.mp found).1.le
  rw [printedBy_of_ne_flush icl warn t found (by simp [ends]), ByteState.lines, ends, stored,
    (summarises_found t warn found).depth]
  simp only [Int.sub_eq_zero]

/-- Without an end too many in front, an open transaction has an outermost begin:
the record at the last position of depth zero must raise the depth. -/
theorem exists_opens {records : List Metadata}
    (nested : ∀ i ≤ records.length, 0 ≤ depthBefore records i) {position : Nat}
    (bound : position ≤ records.length) (opened : 0 < depthBefore records position) :
    ∃ first, Opens records first position := by
  have nonzero : 0 < position := by
    rcases Nat.eq_zero_or_pos position with rfl | positive
    · simp [depthBefore] at opened
    · exact positive
  obtain ⟨first, below, outside, last⟩ :=
    (exists_lastBefore (fun i => depthBefore records i = 0) position).mpr ⟨0, nonzero, rfl⟩
  have inside : ∀ j, first < j → j ≤ position → 0 < depthBefore records j := by
    intro j after before
    rcases Nat.lt_or_eq_of_le before with earlier | rfl
    · exact lt_of_le_of_ne (nested j (before.trans bound)) (Ne.symm (last j after earlier))
    · exact opened
  have found : records[first]? = some records[first] :=
    List.getElem?_eq_getElem (lt_of_lt_of_le below bound)
  have raised := inside (first + 1) (Nat.lt_succ_self first) below
  rw [depthBefore_succ found, outside] at raised
  refine ⟨first, below, ⟨_, found, ?_, outside⟩, inside⟩
  unfold depthStep at raised
  split at raised <;> simp_all

/-- The assign at position `i` is due when the transaction that began at `first`
ends: it lies behind the begin, has a size, met no excluded byte when it was
processed and meets none now, and some byte of it is in the persist set. -/
def DueAssign (first position i : Nat) : Prop :=
  first < i ∧ ∃ m, t.records[i]? = some m ∧ m.type = .assign ∧ 0 < m.size ∧
    Disjoint m.bytes (excludedBefore t.records i) ∧
    Disjoint m.bytes (excludedBefore t.records position) ∧
    ∃ b ∈ m.bytes, b ∈ icl.toSet (persistInfoBefore icl warn t position)

open Classical in
/-- The addresses of the due assigns in trace order. -/
noncomputable def dueAssigns (first position : Nat) : List Ptr :=
  ((List.range position).filter fun i => DueAssign icl warn t first position i).filterMap
    (t.veriptr[·]?)

/-- Behind the outermost begin, the stored assigns are the effective ones. -/
theorem storedAt_iff_of_opens {first position i : Nat} (opens : Opens t.records first position)
    (below : i < position) :
    StoredAt t.records position i ↔ first < i ∧ ∃ m, t.records[i]? = some m ∧ m.type = .assign ∧
      0 < m.size ∧ Disjoint m.bytes (excludedBefore t.records i) := by
  constructor
  · rintro ⟨⟨m, found, assign, sized, included, inside⟩, since⟩
    refine ⟨?_, m, found, assign, sized, included⟩
    rcases Nat.lt_trichotomy first i with behind | rfl | before
    · exact behind
    · obtain ⟨_, _, _, outside⟩ := opens.begins
      omega
    · exact absurd opens.begins (since first before opens.before)
  · rintro ⟨behind, m, found, assign, sized, included⟩
    refine ⟨⟨m, found, assign, sized, included, opens.inside i behind below.le⟩, ?_⟩
    rintro j after before ⟨_, _, _, outside⟩
    have inside := opens.inside j (by omega) before.le
    omega

/-- Lists of at most one report print one line for each nonempty list. -/
theorem map_checked_flatMap (cur : Ptr) (reports : Ptr → List Report)
    (single : ∀ p, (reports p).length ≤ 1) (stored : List Ptr) :
    (stored.flatMap fun p => (reports p).map (Line.mk cur p)).map Line.checked =
      stored.filter fun p => reports p ≠ [] := by
  induction stored with
  | nil => rfl
  | cons p rest ih =>
    rw [List.flatMap_cons, List.map_append, ih]
    match listed : reports p, single p with
    | [], _ => simp [listed]
    | [report], _ => simp [listed]

/-- Of the stored assigns, the due ones are those whose check reports something. Both
lists are taken from the positions in front of the end, so it is enough to compare the
conditions at each position. -/
theorem filter_stored_eq_due {first position : Nat} (opens : Opens t.records first position)
    (bound : position ≤ t.veriptr.length) :
    ((storedBefore t position).filter fun p =>
      (t.before warn position).persistReports (t.memory p) ≠ []) =
        dueAssigns icl warn t first position := by
  classical
  have summary := summarises_before t warn position bound
  have reported (m : Metadata) : (t.before warn position).persistReports m ≠ [] ↔
      Disjoint m.bytes (excludedBefore t.records position) ∧
        ∃ b ∈ m.bytes, b ∈ icl.toSet (persistInfoBefore icl warn t position) := by
    rw [toSet_persistInfoBefore, ← summary.excluded]
    exact (t.before warn position).persistReports_ne_nil_iff m
  rw [storedBefore, dueAssigns, List.filter_filterMap, List.filterMap_filter, List.filterMap_filter]
  apply List.filterMap_congr
  intro i member
  have below : i < position := List.mem_range.mp member
  have located : t.veriptr[i]? = some t.veriptr[i] :=
    List.getElem?_eq_getElem (lt_of_lt_of_le below bound)
  generalize t.veriptr[i] = p at located
  have found := t.record_found located
  have due : DueAssign icl warn t first position i ↔
      StoredAt t.records position i ∧
        (t.before warn position).persistReports (t.memory p) ≠ [] := by
    rw [storedAt_iff_of_opens t opens below, reported]
    constructor
    · rintro ⟨behind, m, same, assign, sized, included, now, unflushed⟩
      obtain rfl : t.memory p = m := Option.some.inj (found.symm.trans same)
      exact ⟨⟨behind, _, same, assign, sized, included⟩, now, unflushed⟩
    · rintro ⟨⟨behind, m, same, assign, sized, included⟩, now, unflushed⟩
      obtain rfl : t.memory p = m := Option.some.inj (found.symm.trans same)
      exact ⟨behind, _, same, assign, sized, included, now, unflushed⟩
  simp only [due, located, decide_eq_true_eq]
  split_ifs <;> simp_all

/-- Every transaction end that closes the outermost transaction prints, in trace order,
one error for exactly the assigns of that transaction that are due. The inner ends print
nothing.

The stored assigns are checked in turn, and each check prints one line or none. Behind
the outermost begin the stored assigns are the effective ones, so those that print a
line are the due ones. -/
theorem transaction_end_reports
    (nested : ∀ i ≤ t.records.length, 0 ≤ depthBefore t.records i) (position : Nat) (cur : Ptr)
    (found : t.veriptr[position]? = some cur) (ends : (t.memory cur).type = .transactionEnd) :
    (depthBefore t.records position = 1 → ∃ first, Opens t.records first position ∧
      (printedBy icl warn t cur).map Line.checked = dueAssigns icl warn t first position ∧
      ∀ line ∈ printedBy icl warn t cur, line.processed = cur ∧ ∃ lower upper,
        line.report = .persistError (t.memory line.checked).filenameTemp
          (t.memory line.checked).lineNum lower upper) ∧
    (depthBefore t.records position ≠ 1 → printedBy icl warn t cur = []) := by
  have bound : position ≤ t.veriptr.length := (List.getElem?_eq_some_iff.mp found).1.le
  rw [printedBy_end icl warn t found ends]
  refine ⟨fun outermost => ?_, fun inner => if_neg inner⟩
  have single (p : Ptr) := (t.before warn position).persistReports_single (t.memory p)
  obtain ⟨first, opens⟩ := exists_opens nested
    (bound.trans_eq (List.length_map t.memory).symm) (by omega)
  refine ⟨first, opens, ?_, ?_⟩
  · rw [if_pos outermost, map_checked_flatMap cur _ fun p => (single p).1,
      filter_stored_eq_due icl warn t opens bound]
  · intro line member
    rw [if_pos outermost] at member
    obtain ⟨p, _, printed⟩ := List.mem_flatMap.mp member
    obtain ⟨report, reported, rfl⟩ := List.mem_map.mp printed
    exact ⟨rfl, (single p).2 report reported⟩

/-- An assign outside of the transaction, one in an inner transaction that is
flushed later, and one that is never flushed. -/
def nestedTransaction : Trace := .ofRecords
  [{ type := .assign, addr := 32, size := 8 }, { type := .transactionBegin },
    { type := .transactionBegin }, { type := .assign, addr := 0, size := 8 },
    { type := .transactionEnd }, { type := .assign, addr := 8, size := 8 },
    { type := .flush, addr := 0, size := 8 }, { type := .fence }, { type := .transactionEnd }]

/-- The assign that is flushed later is not due at the inner end, nor at the outer one;
the assign outside of the transaction is due at neither. -/
theorem transaction_end_reports_nested :
    printedBy (Segments.segments Nat Int) false nestedTransaction 8 =
      [⟨8, 5, .persistError [] 0 8 16⟩] ∧
    printedBy (Segments.segments Nat Int) false nestedTransaction 4 = [] ∧
    ∃ first, Opens nestedTransaction.records first 8 ∧
      dueAssigns (Segments.segments Nat Int) false nestedTransaction first 8 = [5] := by
  have nested : ∀ i ≤ nestedTransaction.records.length,
      0 ≤ depthBefore nestedTransaction.records i := by decide
  have printed : printedBy (Segments.segments Nat Int) false nestedTransaction 8 =
      [⟨8, 5, .persistError [] 0 8 16⟩] := by decide
  obtain ⟨first, opens, checked, _⟩ := (transaction_end_reports (Segments.segments Nat Int) false
    nestedTransaction nested 8 8 rfl rfl).1 (by decide)
  have inner := (transaction_end_reports (Segments.segments Nat Int) false
    nestedTransaction nested 4 4 rfl rfl).2 (by decide)
  rw [printed] at checked
  exact ⟨printed, inner, first, opens, checked.symm⟩

end TransactionEnd

section Balance

variable (icl : Icl) (warn : Bool) (t : Trace)

/-- The number of transaction begins. -/
def begins (records : List Metadata) : Nat := records.countP fun m => m.type = .transactionBegin

/-- The number of transaction ends. -/
def ends (records : List Metadata) : Nat := records.countP fun m => m.type = .transactionEnd

/-- No part at the front of the records closes more transactions than it opens. -/
def NeverOverclosed (records : List Metadata) : Prop :=
  ∀ i ≤ records.length, ends (records.take i) ≤ begins (records.take i)

/-- Begins and ends form a balanced bracket word. -/
def Balanced (records : List Metadata) : Prop :=
  NeverOverclosed records ∧ begins records = ends records

instance (records : List Metadata) : Decidable (NeverOverclosed records) :=
  inferInstanceAs (Decidable (∀ i ≤ records.length, _ ≤ _))

instance (records : List Metadata) : Decidable (Balanced records) :=
  inferInstanceAs (Decidable (_ ∧ _))

/-- The depth is raised by every begin and lowered by every end. -/
theorem foldl_depthStep (records : List Metadata) (depth : Int) :
    records.foldl depthStep depth = depth + begins records - ends records := by
  induction records generalizing depth with
  | nil => simp [begins, ends]
  | cons m rest ih =>
    rw [List.foldl_cons, ih]
    simp only [begins, ends, depthStep, List.countP_cons]
    cases m.type <;> simp <;> omega

/-- At the end of the records the depth is the difference of the totals. -/
theorem depthBefore_length (records : List Metadata) :
    depthBefore records records.length = begins records - ends records := by
  rw [depthBefore, List.take_length, foldl_depthStep, Int.zero_add]

/-- The message about unmatched transactions is printed exactly when the begins
outnumber the ends. -/
theorem transactionEndError_iff :
    (veriProc icl warn t.memory t.veriptr).transactionEndError = true ↔
      ends t.records < begins t.records := by
  have final := (summarises_before t warn t.veriptr.length le_rfl).depth
  have counted := depthBefore_length t.records
  rw [Trace.records, List.length_map] at counted
  rw [transactionEndError_eq, decide_eq_true_iff, final, Trace.records, counted]
  omega

/-- The message judges the begins and ends as a bracket word exactly when no part at the
front has an end too many, or the begins outnumber the ends in the end and the message
is printed anyway. The message compares the totals only, so a word that closes too much
in between and is even at the end passes. -/
theorem mismatch_reported_iff :
    ((veriProc icl warn t.memory t.veriptr).transactionEndError = true ↔ ¬ Balanced t.records) ↔
      NeverOverclosed t.records ∨ ends t.records < begins t.records := by
  rw [transactionEndError_iff, Balanced]
  constructor
  · intro reported
    by_cases unclosed : ends t.records < begins t.records
    · exact Or.inr unclosed
    · have balanced := not_not.mp (mt reported.mpr unclosed)
      exact Or.inl balanced.1
  · rintro (nested | unclosed)
    · have total := nested t.records.length le_rfl
      rw [List.take_length] at total
      simp only [nested, true_and]
      omega
    · exact iff_of_true unclosed fun balanced => by omega

/-- A trace that ends a transaction it never began. -/
def strayEnd : Trace := .ofRecords [{ type := .transactionEnd }]

/-- The totals differ, but the other way round, and nothing is printed. -/
theorem stray_end_not_reported :
    ¬ Balanced strayEnd.records ∧
    (veriProc (Segments.segments Nat Int) false strayEnd.memory
      strayEnd.veriptr).transactionEndError = false := by decide

end Balance

end PMTest
