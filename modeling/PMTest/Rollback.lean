import PMTest.CrashVerdict
import PMTest.UndoLog
import PMTest.UndoRecovery

/-!
# What the checks of a transaction say about a crash

A transaction of the tested program logs a range before it writes to it, and its writes are
persistent when it ends. The library that runs it keeps an undo log: an add remembers the
content of its range, and the recovery after a crash puts back what was remembered. The
transaction is atomic if no crash inside of it leaves one of its writes behind the recovery,
and no crash behind its end loses one.

The checker tests the first part with the ASSIGN ERRORs and the second part with the
PERSIST ERRORs of the end. Where its check of an assign can see what it should, the two
kinds of errors are missing exactly if the transaction is atomic.
-/

namespace PMTest

open Lookahead PersistentMemory

section Atomicity

variable (records : List Metadata) (first last : Nat)

/-- The check of an assign can see what it should: nothing is excluded, the range of an
assign does not leave the address space, and either the transaction has logged all of it, or
no transaction has logged any of it. -/
structure LoggedWhole : Prop where
  included : ∀ m ∈ records.take last, m.type ≠ .exclude
  fits : ∀ i m, first < i → i < last → records[i]? = some m → m.type = .assign →
    m.addr + m.size < 2 ^ 64
  whole : ∀ i m, first < i → i < last → records[i]? = some m → m.type = .assign →
    (∀ b ∈ m.bytes, ∃ j, first < j ∧ j < i ∧ LoggedAt records b j) ∨
      ∀ b ∈ m.bytes, ∀ j < i, ¬ LoggedAt records b j

/-- No write of the transaction survives a crash inside of it and the recovery, and none is
lost by a crash behind its end, where one fence is granted if any follows in the trace. -/
structure CrashAtomic : Prop where
  undone : Undoes (memoryEvents records) (LoggedAt records) first last
  kept : ∀ b i, first < i → i < last → CoveredAt records .assign b i →
    ¬ Loses (judgedProgram records last) b

end Atomicity

section Positions

/-- A record of the trace has an address. -/
theorem Trace.exists_pointer (t : Trace) {i : Nat} {m : Metadata}
    (found : t.records[i]? = some m) : ∃ p, t.veriptr[i]? = some p ∧ t.memory p = m := by
  rwa [t.records_getElem?, Option.map_eq_some_iff] at found

variable {records : List Metadata} {first last : Nat}

/-- The record that closes the transaction. The depth falls from a positive number to
zero there, and only an end lowers it, by one. -/
theorem OutermostTransaction.ends (transaction : OutermostTransaction records first last) :
    depthBefore records last = 1 ∧
      ∃ m, records[last]? = some m ∧ m.type = .transactionEnd := by
  have opened := transaction.inside last transaction.before le_rfl
  have closed := transaction.closes
  cases found : records[last]? with
  | none =>
    have same : depthBefore records (last + 1) = depthBefore records last := by
      simp [depthBefore, List.take_add_one, found]
    omega
  | some m =>
    rw [depthBefore_succ found, depthStep] at closed
    cases type : m.type with
    | transactionEnd =>
      simp only [type] at closed
      exact ⟨by omega, m, rfl, type⟩
    | transactionBegin =>
      simp only [type] at closed
      omega
    | _ =>
      simp only [type] at closed
      omega

/-- A record of the transaction is no begin of an outermost one. -/
theorem OutermostTransaction.behind (transaction : OutermostTransaction records first last)
    {i : Nat} {m : Metadata} (above : first ≤ i) (found : records[i]? = some m)
    (other : m.type ≠ .transactionBegin) : first < i := by
  refine lt_of_le_of_ne above ?_
  rintro rfl
  obtain ⟨n, there, begins, _⟩ := transaction.begins
  exact other (Option.some.inj (found.symm.trans there) ▸ begins)

end Positions

section Verdict

variable (icl : Icl) (warn : Bool) {t : Trace} {first last : Nat}
  (transaction : OutermostTransaction t.records first last)
  (logged : LoggedWhole t.records first last)

include transaction logged

/-- An assign of the transaction is silent exactly if a part of its range is logged.
Nothing is excluded in front of it and the transaction is open, so only the log decides. -/
theorem assign_silent_iff {i : Nat} {p : Ptr} (above : first < i) (below : i < last)
    (found : t.veriptr[i]? = some p) (assign : (t.memory p).type = .assign) :
    printedBy icl warn t p = [] ↔
      (0 < (t.memory p).size → ∃ b ∈ (t.memory p).bytes, ∃ j < i, LoggedAt t.records b j) := by
  have included : excludedBefore t.records i = ∅ := excludedBefore_eq_empty fun m member =>
    logged.included m (List.take_subset_take_left _ below.le member)
  have inside := transaction.inside i above below.le
  have reports := assign_reports_iff (summarises_found t warn found) (t.memory p)
  rw [included] at reports
  simp only [Set.disjoint_empty, inside, true_and] at reports
  have silent : (t.before warn i).assignReports (t.memory p) = [] ↔
      ¬ ∃ report ∈ (t.before warn i).assignReports (t.memory p), report.isAssignError = true := by
    unfold ByteState.assignReports
    split_ifs
    · simp [Report.isAssignError]
    · simp
  rw [printedBy_assign icl warn t found assign, List.map_eq_nil_iff, silent, reports]
  simp only [not_and, not_forall, not_not, exists_prop]

/-- The assigns of the transaction are silent exactly if a crash inside of it can be
undone.

A crash can be undone exactly if every store is logged before by an entry of this
transaction. Since an assign is logged as a whole by the transaction or not at all, this
is the case exactly if every assign meets an entry, which is what the check asks for. -/
theorem assigns_silent_iff :
    (∀ i p, first < i → i < last → t.veriptr[i]? = some p → (t.memory p).type = .assign →
      printedBy icl warn t p = []) ↔
    Undoes (memoryEvents t.records) (LoggedAt t.records) first last := by
  have apart (b i : Nat) (entry : LoggedAt t.records b i) :
      ¬ OccursAt (Event.Stores b) (memoryEvents t.records) i := by
    rw [stores_at_iff]
    rintro ⟨m, found, assign, _⟩
    obtain ⟨n, there, add, _⟩ := entry
    obtain rfl : m = n := Option.some.inj (found.symm.trans there)
    exact absurd (assign.symm.trans add) (by decide)
  rw [undoes_iff apart]
  constructor
  · intro silent b i above below stores
    obtain ⟨m, found, assign, inside⟩ := (stores_at_iff t.records b i).mp stores
    have behind := transaction.behind above found (by simp [assign])
    obtain ⟨p, located, rfl⟩ := t.exists_pointer found
    obtain ⟨c, covered, j, before, entry⟩ := (assign_silent_iff icl warn transaction logged behind
      below located assign).mp (silent i p behind below located assign)
      (Metadata.sized_of_mem inside)
    rcases logged.whole i _ behind below found assign with all | none
    · obtain ⟨j, after, earlier, entry⟩ := all b inside
      exact ⟨j, after.le, earlier, entry⟩
    · exact absurd entry (none c covered j before)
  · intro covered i p above below located assign
    refine (assign_silent_iff icl warn transaction logged above below located assign).mpr ?_
    intro sized
    have found := t.record_found located
    have start : (t.memory p).addr ∈ (t.memory p).bytes := by
      rw [Metadata.mem_bytes_of_fits _ (logged.fits i _ above below found assign)]
      omega
    have stores := (stores_at_iff t.records _ i).mpr ⟨_, found, assign, start⟩
    obtain ⟨j, _, before, entry⟩ := covered _ i above.le below stores
    exact ⟨_, start, j, before, entry⟩

/-- The end of the transaction is silent exactly if a crash behind it loses no write. It
checks the assigns of the transaction again, and a byte of one of them is reported
exactly if its last value can be lost. -/
theorem end_silent_iff {cur : Ptr} (found : t.veriptr[last]? = some cur) :
    printedBy icl warn t cur = [] ↔
      ∀ b i, first < i → i < last → CoveredAt t.records .assign b i →
        ¬ Loses (judgedProgram t.records last) b := by
  have located := t.record_found found
  obtain ⟨depth, m, there, ends⟩ := transaction.ends
  obtain rfl : t.memory cur = m := Option.some.inj (located.symm.trans there)
  have bound : last ≤ t.records.length := (List.getElem?_eq_some_iff.mp located).1.le
  have unfenced : ¬ FenceAt t.records last := by
    rintro ⟨m, same, fence⟩
    obtain rfl : t.memory cur = m := Option.some.inj (located.symm.trans same)
    exact absurd (ends.symm.trans fence) (by decide)
  have summary := summarises_found t warn found
  have excluded : (t.before warn last).excluded = ∅ :=
    summary.excluded.trans (excludedBefore_eq_empty logged.included)
  have reported (n : Metadata) : (t.before warn last).persistReports n ≠ [] ↔
      ∃ b ∈ n.bytes, Loses (judgedProgram t.records last) b := by
    rw [ByteState.persistReports_ne_nil_iff, excluded]
    simp only [Set.disjoint_empty, true_and, summary.dirty,
      loses_judged_iff bound unfenced logged.included]
  rw [printedBy_end icl warn t found ends, if_pos depth, List.flatMap_eq_nil_iff]
  simp only [List.map_eq_nil_iff]
  constructor
  · rintro silent b i above below ⟨m, assigned, assign, inside⟩ loses
    obtain ⟨p, at_i, rfl⟩ := t.exists_pointer assigned
    have earlier : excludedBefore t.records i = ∅ := excludedBefore_eq_empty fun m member =>
      logged.included m (List.take_subset_take_left _ below.le member)
    have stored : p ∈ storedBefore t last := (mem_storedBefore t last p).mpr ⟨i, below,
      (storedAt_iff_of_opens t transaction.toOpens below).mpr ⟨above, _, assigned, assign,
        Metadata.sized_of_mem inside, by rw [earlier]; exact Set.disjoint_empty _⟩, at_i⟩
    exact (reported _).mpr ⟨b, inside, loses⟩ (silent p stored)
  · intro kept p stored
    by_contra printed
    obtain ⟨b, inside, loses⟩ := (reported _).mp printed
    obtain ⟨i, below, due, at_i⟩ := (mem_storedBefore t last p).mp stored
    obtain ⟨above, m, assigned, assign, _⟩ :=
      (storedAt_iff_of_opens t transaction.toOpens below).mp due
    obtain rfl : t.memory p = m := Option.some.inj ((t.record_found at_i).symm.trans assigned)
    exact kept b i above below ⟨_, assigned, assign, inside⟩ loses

/-- The checks of a transaction are exact: its assigns and its end get no error exactly if
it is atomic, whatever a crash leaves behind. -/
theorem transaction_checks_exact_for_crashes {cur : Ptr} (found : t.veriptr[last]? = some cur) :
    ((∀ i p, first < i → i < last → t.veriptr[i]? = some p → (t.memory p).type = .assign →
        printedBy icl warn t p = []) ∧ printedBy icl warn t cur = []) ↔
      CrashAtomic t.records first last := by
  rw [assigns_silent_iff icl warn transaction logged, end_silent_iff icl warn transaction logged
    found]
  exact ⟨fun ⟨undone, kept⟩ => ⟨undone, kept⟩, fun ⟨undone, kept⟩ => ⟨undone, kept⟩⟩

end Verdict

/-- A transaction that logs, writes and flushes a range. -/
def loggedTransaction : Trace := .ofRecords
  [{ type := .transactionBegin }, { type := .transactionAdd, addr := 0, size := 8 },
    { type := .assign, addr := 0, size := 8 }, { type := .flush, addr := 0, size := 8 },
    { type := .fence }, { type := .transactionEnd }]

/-- No check fails, so the transaction is atomic under crashes. It has a single assign,
and this is logged as a whole. -/
theorem transaction_checks_exact_for_crashes_logged :
    CrashAtomic loggedTransaction.records 0 5 := by
  have inside : ∀ j ≤ 5, 0 < j → 0 < depthBefore loggedTransaction.records j := by decide
  have transaction : OutermostTransaction loggedTransaction.records 0 5 :=
    ⟨⟨by decide, ⟨_, rfl, rfl, rfl⟩, fun j above below => inside j below above⟩, rfl⟩
  have only (i : Nat) (m : Metadata) (above : 0 < i) (below : i < 5)
      (found : loggedTransaction.records[i]? = some m) (assign : m.type = .assign) :
      i = 2 ∧ m = loggedTransaction.memory 2 := by
    obtain rfl | rfl | rfl | rfl : i = 1 ∨ i = 2 ∨ i = 3 ∨ i = 4 := by omega
    · exact absurd (Option.some.inj found ▸ assign) (by decide)
    · exact ⟨rfl, (Option.some.inj found).symm⟩
    · exact absurd (Option.some.inj found ▸ assign) (by decide)
    · exact absurd (Option.some.inj found ▸ assign) (by decide)
  have logged : LoggedWhole loggedTransaction.records 0 5 := by
    refine ⟨by decide, fun i m above below found assign => ?_,
      fun i m above below found assign => .inl fun b covered => ?_⟩
    · obtain ⟨_, rfl⟩ := only i m above below found assign
      decide
    · obtain ⟨rfl, rfl⟩ := only i m above below found assign
      exact ⟨1, by decide, by decide, _, rfl, rfl, covered, by decide⟩
  refine (transaction_checks_exact_for_crashes (Segments.segments Nat Int) false transaction
    logged (show loggedTransaction.veriptr[5]? = some 5 from rfl)).mp
    ⟨fun i p above below found assign => ?_, by decide⟩
  obtain ⟨rfl, _⟩ := only i _ above below (loggedTransaction.record_found found) assign
  obtain rfl := Option.some.inj found
  decide

end PMTest
