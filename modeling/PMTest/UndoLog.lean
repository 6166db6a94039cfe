import PMTest.Erasure
import PMTest.Segments

/-!
# The undo-log check of assigns inside transactions

Inside a transaction an assign is reported when no logged range meets its range.
One logged byte is therefore enough to silence the check of a whole range, where
the order query asks for every byte of its ranges. The logged bytes are never
dropped either: a transaction begin forgets the assigns of the transaction before
it, and keeps its log.

Both weaknesses are described exactly: which assigns are checked as intended, and
which transactions are independent of the log of an earlier one.
-/

namespace PMTest

open Intervals Lookahead

section Coverage

variable (icl : Icl) (warn : Bool) (t : Trace)

/-- The check of an assign reads the history of its bytes. -/
theorem assign_reports_iff {records : List Metadata} {position : Nat} {v : ByteState}
    (summary : Summarises records position v) (m : Metadata) :
    (∃ report ∈ v.assignReports m, report.isAssignError = true) ↔
      0 < m.size ∧ Disjoint m.bytes (excludedBefore records position) ∧
        0 < depthBefore records position ∧
        ∀ b ∈ m.bytes, ∀ i < position, ¬ LoggedAt records b i := by
  have unlogged : Disjoint m.bytes v.added ↔
      ∀ b ∈ m.bytes, ∀ i < position, ¬ LoggedAt records b i := by
    simp only [Set.disjoint_left, summary.added, not_exists, not_and]
  rw [← summary.excluded, ← summary.depth, ← unlogged, ByteState.assignReports]
  split_ifs with unlogged
  · exact iff_of_true ⟨_, List.mem_singleton_self _, rfl⟩
      ⟨unlogged.1.1, unlogged.1.2, unlogged.2⟩
  · apply iff_of_false (fun ⟨_, member, _⟩ => List.not_mem_nil member)
    exact fun ⟨sized, included, rest⟩ => unlogged ⟨⟨sized, included⟩, rest⟩

/-- An assign prints the reports of its own check. -/
theorem printedBy_assign {position : Nat} {cur : Ptr} (found : t.veriptr[position]? = some cur)
    (assign : (t.memory cur).type = .assign) :
    printedBy icl warn t cur =
      ((t.before warn position).assignReports (t.memory cur)).map (Line.mk cur cur) := by
  rw [printedBy_of_ne_flush icl warn t found (by simp [assign]), ByteState.lines, assign]

/-- An effective assign inside a transaction is reported for every unlogged byte exactly
when its bytes are all logged or all unlogged. The code reports it when no byte is
logged, which differs from some byte being unlogged exactly in between. -/
theorem unlogged_byte_reported_iff (position : Nat) (cur : Ptr)
    (found : t.veriptr[position]? = some cur) (assign : (t.memory cur).type = .assign)
    (sized : 0 < (t.memory cur).size)
    (included : Disjoint (t.memory cur).bytes (excludedBefore t.records position))
    (inside : 0 < depthBefore t.records position) :
    ((∃ b ∈ (t.memory cur).bytes, ∀ i < position, ¬ LoggedAt t.records b i) →
      ∃ line ∈ printedBy icl warn t cur, line.report.isAssignError = true) ↔
    (∀ b ∈ (t.memory cur).bytes, ∃ i < position, LoggedAt t.records b i) ∨
      ∀ b ∈ (t.memory cur).bytes, ∀ i < position, ¬ LoggedAt t.records b i := by
  have printed : (∃ line ∈ printedBy icl warn t cur, line.report.isAssignError = true) ↔
      ∀ b ∈ (t.memory cur).bytes, ∀ i < position, ¬ LoggedAt t.records b i := by
    have reports := assign_reports_iff (summarises_found t warn found) (t.memory cur)
    simp only [sized, included, inside, true_and] at reports
    rw [printedBy_assign icl warn t found assign, ← reports]
    simp
  rw [printed]
  constructor
  · intro covers
    by_cases unlogged : ∃ b ∈ (t.memory cur).bytes, ∀ i < position, ¬ LoggedAt t.records b i
    · exact .inr (covers unlogged)
    · apply Or.inl
      intro b member
      by_contra missing
      exact unlogged ⟨b, member, fun i before logged => missing ⟨i, before, logged⟩⟩
  · rintro (logged | unlogged) ⟨b, member, missing⟩
    · obtain ⟨i, before, found⟩ := logged b member
      exact absurd found (missing i before)
    · exact unlogged

/-- The logged range covers the assigned one. -/
def loggedAssign : Trace := .ofRecords
  [{ type := .transactionBegin }, { type := .transactionAdd, addr := 0, size := 8 },
    { type := .assign, addr := 0, size := 8 }]

/-- There is no unlogged byte, and none is reported. -/
theorem unlogged_byte_reported_logged_assign :
    (∀ b ∈ (loggedAssign.memory 2).bytes, ∃ i < 2, LoggedAt loggedAssign.records b i) ∧
    ((∃ b ∈ (loggedAssign.memory 2).bytes, ∀ i < 2, ¬ LoggedAt loggedAssign.records b i) →
      ∃ line ∈ printedBy (Segments.segments Nat Int) false loggedAssign 2,
        line.report.isAssignError = true) := by
  have logged : ∀ b ∈ (loggedAssign.memory 2).bytes, ∃ i < 2,
      LoggedAt loggedAssign.records b i :=
    fun b member => ⟨1, by decide, _, rfl, rfl, member, by decide⟩
  have included : excludedBefore loggedAssign.records 2 = ∅ :=
    excludedBefore_eq_empty (by decide)
  exact ⟨logged, (unlogged_byte_reported_iff (Segments.segments Nat Int) false loggedAssign 2 2 rfl
    rfl (by decide) (by rw [included]; exact Set.disjoint_empty _) (by decide)).mpr (.inl logged)⟩

/-- Half of the assigned range is logged. -/
def halfLoggedAssign : Trace := .ofRecords
  [{ type := .transactionBegin }, { type := .transactionAdd, addr := 0, size := 4 },
    { type := .assign, addr := 0, size := 8 }]

/-- Half of the assigned range is unlogged and goes unreported. -/
theorem half_logged_assign_unreported :
    (halfLoggedAssign.memory 2).type = .assign ∧ 0 < (halfLoggedAssign.memory 2).size ∧
    0 < depthBefore halfLoggedAssign.records 2 ∧
    Disjoint (halfLoggedAssign.memory 2).bytes (excludedBefore halfLoggedAssign.records 2) ∧
    (∃ b ∈ (halfLoggedAssign.memory 2).bytes, ∀ i < 2,
      ¬ LoggedAt halfLoggedAssign.records b i) ∧
    ¬ ∃ line ∈ printedBy (Segments.segments Nat Int) false halfLoggedAssign 2,
      line.report.isAssignError = true := by
  have included : excludedBefore halfLoggedAssign.records 2 = ∅ :=
    excludedBefore_eq_empty (by decide)
  refine ⟨rfl, by decide, by decide, by rw [included]; exact Set.disjoint_empty _,
    ⟨4, ⟨by decide, by decide⟩, ?_⟩, by decide⟩
  rintro i before ⟨m, found, add, inside, _⟩
  obtain rfl | rfl : i = 0 ∨ i = 1 := by omega
  · exact absurd (Option.some.inj found ▸ add) (by decide)
  · rw [← Option.some.inj found] at inside
    exact absurd inside.2 (by decide)

end Coverage

section Scope

/-- The records between an outermost begin and the end that closes it. -/
structure OutermostTransaction (records : List Metadata) (first last : Nat) : Prop extends
    Opens records first last where
  closes : depthBefore records (last + 1) = 0

variable (icl : Icl) (warn : Bool) (t : Trace) (first last : Nat)

/-- Everything but the log entries of the transaction between the positions. -/
def keepsAdd (p : Ptr) : Bool :=
  ¬ ((t.memory p).type = .transactionAdd ∧ p ∈ (t.veriptr.take last).drop (first + 1))

/-- The trace without the log entries of the transaction between the positions. -/
def withoutAdds : Trace := t.keep (keepsAdd t first last)

/-- The reports of the undo-log checks. -/
def logReports (lines : List Line) : List Line :=
  lines.filter fun line => line.report.isAssignError || line.report.isTransactionAddWarning

variable {t first last}

/-- An address lies in a segment of the trace exactly if its position does. -/
theorem mem_segment_iff {position : Nat} {p : Ptr} (found : t.veriptr[position]? = some p) :
    p ∈ (t.veriptr.take last).drop (first + 1) ↔ first < position ∧ position < last := by
  have bound : position < t.veriptr.length := (List.getElem?_eq_some_iff.mp found).1
  rw [List.mem_iff_getElem?]
  simp only [List.getElem?_drop, List.getElem?_take]
  constructor
  · rintro ⟨offset, located⟩
    split_ifs at located with below
    have same : position = first + 1 + offset :=
      (List.getElem?_inj bound t.distinct).mp (found.trans located.symm)
    omega
  · rintro ⟨after, below⟩
    have offset : first + 1 + (position - (first + 1)) = position := by omega
    exact ⟨position - (first + 1), by rw [offset, if_pos below, found]⟩

/-- Erased records are adds. -/
theorem unfenced_of_erased (p : Ptr) (erased : keepsAdd t first last p = false) :
    (t.memory p).type ≠ .fence := by
  have add := (not_not.mp (of_decide_eq_false erased)).1
  simp [add]

/-- The log entries of a byte that remain. -/
def LoggedElsewhere (records : List Metadata) (first last position b : Nat) : Prop :=
  ∃ i < position, ¬ (first < i ∧ i < last) ∧ LoggedAt records b i

/-- The two runs differ in the logged bytes only. -/
def SameButLog (t : Trace) (first last position : Nat) (v w : ByteState) : Prop :=
  w = { v with added := { b | LoggedElsewhere t.records first last position b } }

/-- A record other than an add of the transaction between the positions. -/
theorem loggedElsewhere_succ {position : Nat} {cur : Ptr} {v : ByteState}
    (found : t.veriptr[position]? = some cur) (retained : keepsAdd t first last cur = true)
    (summary : Summarises t.records position v) (b : Nat) :
    LoggedElsewhere t.records first last (position + 1) b ↔
      LoggedElsewhere t.records first last position b ∨
        ((t.memory cur).type = .transactionAdd ∧ b ∈ (t.memory cur).bytes ∧ 0 < v.depth) := by
  have located := t.record_found found
  rw [LoggedElsewhere, Nat.exists_lt_succ_right]
  refine or_congr_right ⟨?_, ?_⟩
  · rintro ⟨_, m, same, add, inside, opened⟩
    obtain rfl : t.memory cur = m := Option.some.inj (located.symm.trans same)
    exact ⟨add, inside, summary.depth ▸ opened⟩
  · rintro ⟨add, inside, opened⟩
    refine ⟨fun between => ?_, _, located, add, inside, summary.depth ▸ opened⟩
    exact of_decide_eq_true retained ⟨add, (mem_segment_iff found).mpr between⟩

/-- A record that logs nothing, or an erased one, leaves the remaining entries alone. -/
theorem loggedElsewhere_silent {position : Nat} {cur : Ptr}
    (found : t.veriptr[position]? = some cur)
    (silent : (t.memory cur).type = .transactionAdd → first < position ∧ position < last)
    (b : Nat) :
    LoggedElsewhere t.records first last (position + 1) b ↔
      LoggedElsewhere t.records first last position b := by
  rw [LoggedElsewhere, Nat.exists_lt_succ_right]
  apply or_iff_left
  rintro ⟨outside, m, same, add, _⟩
  obtain rfl : t.memory cur = m := Option.some.inj ((t.record_found found).symm.trans same)
  exact outside (silent add)

variable (t first last) in
/-- The shorter run stays the same but for the log. An erased add is a step of the
longer run alone, which changes the logged bytes only; all other records do the same to
both. -/
theorem same_but_log (position : Nat) (bound : position ≤ t.veriptr.length) :
    SameButLog t first last position (t.before warn position)
      ((withoutAdds t first last).before warn
        (keptBefore t (keepsAdd t first last) position)) := by
  refine keep_simulates warn (fun p _ => unfenced_of_erased p) (SameButLog t first last)
    ?_ ?_ ?_ ?_ position bound
  · rintro position cur v w found retained _ summary _ rfl
    simp only [SameButLog, loggedElsewhere_succ found retained summary]
    rfl
  · rintro position cur v w found _ skipped rfl
    have same (b : Nat) : LoggedElsewhere t.records first last (position + 1) b ↔
        LoggedElsewhere t.records first last position b := loggedElsewhere_silent found
      (fun add => absurd (skipped.1.symm.trans add) (by decide)) b
    simp only [SameButLog, same]
  · rintro position cur v w found erased _ rfl
    obtain ⟨add, inside⟩ := not_not.mp (of_decide_eq_false erased)
    have between := (mem_segment_iff found).mp inside
    have same (b : Nat) : LoggedElsewhere t.records first last (position + 1) b ↔
        LoggedElsewhere t.records first last position b :=
      loggedElsewhere_silent found (fun _ => between) b
    have processed : ¬ t.Skipped position cur := fun skipped =>
      absurd (skipped.1.symm.trans add) (by decide)
    simp only [SameButLog, same, if_neg processed]
    simp [ByteState.next_quiet, add, excludeStep, depthStep]
  · simp [SameButLog, ByteState.initial, LoggedElsewhere]

/-- Records that the undo-log checks look at in front of a position. -/
def LogChecked (warn : Bool) (excluded : Set Nat) (m : Metadata) : Prop :=
  (m.type = .assign ∧ Disjoint m.bytes excluded) ∨ (warn = true ∧ m.type = .transactionAdd)

/-- An item is listed under one condition as under the other exactly if they are
equivalent. -/
theorem ite_singleton_eq_iff {α : Type*} (x : α) (p q : Prop) [Decidable p] [Decidable q] :
    ((if p then [x] else []) = if q then [x] else []) ↔ (p ↔ q) := by
  by_cases left : p <;> by_cases right : q <;> simp [left, right]

open Classical in
/-- What the undo-log check prints for an assign. -/
theorem log_reports_assign (memory : Ptr → Metadata) (cur : Ptr) (v : ByteState)
    (type : (memory cur).type = .assign) :
    logReports (v.lines warn memory cur) =
      if v.Effective (memory cur) ∧ 0 < v.depth ∧ Disjoint (memory cur).bytes v.added then
        [⟨cur, cur, .assignError (memory cur).filenameTemp (memory cur).lineNum
          (memory cur).addrinterval.lower (memory cur).addrinterval.upper⟩]
      else [] := by
  simp only [ByteState.lines, type, ByteState.assignReports]
  split_ifs <;> rfl

open Classical in
/-- What the undo-log check prints for an add. -/
theorem log_reports_add (memory : Ptr → Metadata) (cur : Ptr) (v : ByteState)
    (type : (memory cur).type = .transactionAdd) :
    logReports (v.lines warn memory cur) =
      if warn = true ∧ (0 < v.depth ∧ 0 < (memory cur).size) ∧
          ¬ Disjoint (memory cur).bytes v.added then
        [⟨cur, cur, .transactionAddWarning (memory cur).filenameTemp (memory cur).lineNum
          (memory cur).addrinterval.lower (memory cur).addrinterval.upper⟩]
      else [] := by
  simp only [ByteState.lines, type, ByteState.addReports]
  split_ifs <;> rfl

/-- Inside a transaction a smaller log gives the same reports exactly if every checked
record that meets the log still meets what is left of it. An assign is reported if it
misses the log, and an add if it meets it; a record of another type is not checked. -/
theorem log_reports_eq_iff (memory : Ptr → Metadata) (cur : Ptr) (v : ByteState)
    (others : Set Nat) (inside : 0 < v.depth) (fewer : others ⊆ v.added) :
    logReports (({ v with added := others } : ByteState).lines warn memory cur) =
        logReports (v.lines warn memory cur) ↔
      (LogChecked warn v.excluded (memory cur) → ¬ Disjoint (memory cur).bytes v.added →
        ¬ Disjoint (memory cur).bytes others) := by
  classical
  have smaller : Disjoint (memory cur).bytes v.added → Disjoint (memory cur).bytes others :=
    fun apart => apart.mono_right fewer
  have sized : ¬ Disjoint (memory cur).bytes v.added → 0 < (memory cur).size := fun overlap => by
    obtain ⟨b, member, _⟩ := Set.not_disjoint_iff.mp overlap
    exact Metadata.sized_of_mem member
  have unchecked (other : (memory cur).type ≠ .assign ∧ (memory cur).type ≠ .transactionAdd) :
      ¬ LogChecked warn v.excluded (memory cur) := by
    simp [LogChecked, other]
  cases type : (memory cur).type with
  | assign =>
    rw [log_reports_assign warn memory cur _ type, log_reports_assign warn memory cur _ type,
      ite_singleton_eq_iff]
    constructor
    · rintro same (⟨_, included⟩ | ⟨_, add⟩) overlap apart
      · exact overlap (same.mp ⟨⟨sized overlap, included⟩, inside, apart⟩).2.2
      · exact absurd (type.symm.trans add) (by decide)
    · refine fun meets => ⟨fun ⟨effective, _, apart⟩ => ⟨effective, inside, ?_⟩,
        fun ⟨effective, _, apart⟩ => ⟨effective, inside, smaller apart⟩⟩
      by_contra overlap
      exact meets (.inl ⟨type, effective.2⟩) overlap apart
  | transactionAdd =>
    rw [log_reports_add warn memory cur _ type, log_reports_add warn memory cur _ type,
      ite_singleton_eq_iff]
    constructor
    · rintro same (⟨assign, _⟩ | ⟨warned, _⟩) overlap
      · exact absurd (type.symm.trans assign) (by decide)
      · exact (same.mpr ⟨warned, ⟨inside, sized overlap⟩, overlap⟩).2.2
    · exact fun meets => ⟨fun ⟨warned, counted, overlap⟩ =>
          ⟨warned, counted, fun apart => overlap (smaller apart)⟩,
        fun ⟨warned, counted, overlap⟩ => ⟨warned, counted, meets (.inr ⟨warned, type⟩) overlap⟩⟩
  | flush | persist | order | transactionEnd =>
    refine iff_of_true ?_ fun checked => absurd checked (unchecked (by simp [type]))
    simp only [ByteState.lines, type]
    rfl
  | _ =>
    refine iff_of_true ?_ fun checked => absurd checked (unchecked (by simp [type]))
    simp only [ByteState.lines, type]

variable (first last) in
/-- A range meets the log in an entry of the transaction between the positions or
in a remaining one. -/
theorem meets_log_iff {records : List Metadata} {position : Nat} {v : ByteState} {m : Metadata}
    (summary : Summarises records position v) (finished : last ≤ position) :
    ¬ Disjoint m.bytes v.added ↔
      (∃ b ∈ m.bytes, ∃ i, first < i ∧ i < last ∧ LoggedAt records b i) ∨
        ∃ b ∈ m.bytes, LoggedElsewhere records first last position b := by
  simp only [Set.not_disjoint_iff, summary.added]
  constructor
  · rintro ⟨b, member, i, below, logged⟩
    by_cases between : first < i ∧ i < last
    · exact .inl ⟨b, member, i, between.1, between.2, logged⟩
    · exact .inr ⟨b, member, i, below, between, logged⟩
  · rintro (⟨b, member, i, _, below, logged⟩ | ⟨b, member, i, below, _, logged⟩)
    · exact ⟨b, member, i, by omega, logged⟩
    · exact ⟨b, member, i, below, logged⟩

/-- Erasing the log entries of one outermost transaction leaves the undo-log
reports of a later one unchanged exactly if every checked record of the later one
that meets a range logged in the first also meets a range logged elsewhere. -/
theorem log_scope_iff (t : Trace) (first last second lastSecond : Nat)
    (outermost : OutermostTransaction t.records first last ∧
      OutermostTransaction t.records second lastSecond) (order : last < second) :
    (∀ position cur, second < position → position < lastSecond →
      t.veriptr[position]? = some cur →
        logReports (printedBy icl warn (withoutAdds t first last) cur) =
          logReports (printedBy icl warn t cur)) ↔
    ∀ position cur, second < position → position < lastSecond →
      t.veriptr[position]? = some cur →
        LogChecked warn (excludedBefore t.records position) (t.memory cur) →
        (∃ b ∈ (t.memory cur).bytes, ∃ i, first < i ∧ i < last ∧ LoggedAt t.records b i) →
          ∃ b ∈ (t.memory cur).bytes, LoggedElsewhere t.records first last position b := by
  refine forall_congr' fun position => forall_congr' fun cur => forall_congr' fun after =>
    forall_congr' fun before => forall_congr' fun found => ?_
  have summary := summarises_found t warn found
  have bound : position ≤ t.veriptr.length := (List.getElem?_eq_some_iff.mp found).1.le
  have retained : keepsAdd t first last cur = true := by
    apply decide_eq_true
    rintro ⟨_, member⟩
    have between := (mem_segment_iff found).mp member
    omega
  have inside : 0 < (t.before warn position).depth := by
    rw [summary.depth]
    exact outermost.2.inside position after before.le
  have fewer : { b | LoggedElsewhere t.records first last position b } ⊆
      (t.before warn position).added := fun b ⟨i, below, _, logged⟩ =>
    (summary.added b).mpr ⟨i, below, logged⟩
  have left : ¬ Disjoint (t.memory cur).bytes
      { b | LoggedElsewhere t.records first last position b } ↔
        ∃ b ∈ (t.memory cur).bytes, LoggedElsewhere t.records first last position b := by
    simp only [Set.not_disjoint_iff, Set.mem_ofPred_eq]
  rw [withoutAdds, printedBy_keep icl warn (fun p _ => unfenced_of_erased p) found retained,
    ← withoutAdds, same_but_log warn t first last position bound,
    printedBy_eq icl warn t position cur found]
  by_cases skipped : t.Skipped position cur
  · have unchecked : ¬ LogChecked warn (excludedBefore t.records position) (t.memory cur) := by
      simp [LogChecked, skipped.1]
    simp only [if_pos skipped, true_iff]
    exact fun checked => absurd checked unchecked
  · rw [if_neg skipped, if_neg skipped,
      log_reports_eq_iff warn t.memory cur _ _ inside fewer, left, summary.excluded,
      meets_log_iff first last summary (by omega)]
    exact forall_congr' fun _ => ⟨fun meets shared => meets (.inl shared),
      fun meets either => either.elim meets id⟩

/-- The second transaction logs its range again. -/
def loggedTwice : Trace := .ofRecords
  [{ type := .transactionBegin }, { type := .transactionAdd, addr := 0, size := 4 },
    { type := .transactionEnd }, { type := .transactionBegin },
    { type := .transactionAdd, addr := 0, size := 4 }, { type := .assign, addr := 0, size := 4 },
    { type := .transactionEnd }]

/-- The assign of the second transaction still meets the entry of its own. -/
theorem log_scope_logged_twice :
    OutermostTransaction loggedTwice.records 0 2 ∧ OutermostTransaction loggedTwice.records 3 6 ∧
    ∀ position cur, 3 < position → position < 6 → loggedTwice.veriptr[position]? = some cur →
      logReports (printedBy (Segments.segments Nat Int) false (withoutAdds loggedTwice 0 2) cur) =
        logReports (printedBy (Segments.segments Nat Int) false loggedTwice cur) := by
  have outermost : OutermostTransaction loggedTwice.records 0 2 := by
    refine ⟨⟨by decide, ⟨_, rfl, rfl, rfl⟩, fun j after before => ?_⟩, rfl⟩
    obtain rfl | rfl : j = 1 ∨ j = 2 := by omega
    all_goals decide
  have outermostSecond : OutermostTransaction loggedTwice.records 3 6 := by
    refine ⟨⟨by decide, ⟨_, rfl, rfl, rfl⟩, fun j after before => ?_⟩, rfl⟩
    obtain rfl | rfl | rfl : j = 4 ∨ j = 5 ∨ j = 6 := by omega
    all_goals decide
  refine ⟨outermost, outermostSecond, (log_scope_iff (Segments.segments Nat Int) false loggedTwice
    0 2 3 6 ⟨outermost, outermostSecond⟩ (by decide)).mpr ?_⟩
  rintro position cur after before found checked ⟨b, member, _⟩
  obtain rfl | rfl : position = 4 ∨ position = 5 := by omega
  · obtain rfl : 4 = cur := Option.some.inj found
    rcases checked with ⟨assign, _⟩ | ⟨warned, _⟩
    · exact absurd assign (by decide)
    · exact absurd warned (by decide)
  · obtain rfl : 5 = cur := Option.some.inj found
    exact ⟨b, member, 4, by decide, by decide, _, rfl, rfl, member, by decide⟩

/-- The second transaction assigns a range that only the first one has logged. -/
def loggedBefore : Trace := .ofRecords
  [{ type := .transactionBegin }, { type := .transactionAdd, addr := 0, size := 4 },
    { type := .transactionEnd }, { type := .transactionBegin },
    { type := .assign, addr := 0, size := 4 }, { type := .transactionEnd }]

/-- The assign is reported only without the log entry of the first transaction, because
the set of logged ranges is never emptied. -/
theorem log_entry_outlives_transaction :
    OutermostTransaction loggedBefore.records 0 2 ∧ OutermostTransaction loggedBefore.records 3 5 ∧
    logReports (printedBy (Segments.segments Nat Int) false loggedBefore 4) = [] ∧
    logReports (printedBy (Segments.segments Nat Int) false (withoutAdds loggedBefore 0 2) 4) =
      [⟨4, 4, .assignError [] 0 0 4⟩] := by
  refine ⟨⟨⟨by decide, ⟨_, rfl, rfl, rfl⟩, fun j after before => ?_⟩, rfl⟩,
    ⟨⟨by decide, ⟨_, rfl, rfl, rfl⟩, fun j after before => ?_⟩, rfl⟩, by decide, by decide⟩
  · obtain rfl | rfl : j = 1 ∨ j = 2 := by omega
    all_goals decide
  · obtain rfl | rfl : j = 4 ∨ j = 5 := by omega
    all_goals decide

end Scope

end PMTest
