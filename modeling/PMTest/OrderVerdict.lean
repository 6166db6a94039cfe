import Mathlib.Data.Nat.Find
import PMTest.History
import PMTest.Segments

/-!
# The verdict of an order query

An order query compares the stamps of two ranges byte by byte. The first theorem
gives the verdict from the history of the bytes. The second one says what an
accepted query means for the times at which the values of the two ranges may
reach memory.

An accepted query bounds the flush of the early byte by the last operation on the
late byte. That operation may be a flush, which replaces the lower bound that the
assign before it had left, so nothing is promised about the assign itself.
-/

namespace PMTest

open Intervals Lookahead

section Verdict

variable (icl : Icl) (warn : Bool) (t : Trace)

/-- A query of two included ranges reports an error when a byte carries no stamp
or the comparison fails. -/
theorem order_reports_iff (v : ByteState) (m : Metadata) (queried : v.Queried m) :
    (∃ report ∈ v.orderReports m, report.isOrderError = true) ↔ ¬ v.Stamped m ∨ v.Unordered m := by
  unfold ByteState.orderReports
  rw [if_pos queried]
  split_ifs with stamped unordered
  · exact iff_of_true ⟨_, List.mem_singleton_self _, rfl⟩ (.inr unordered)
  · exact iff_of_false (fun ⟨_, member, _⟩ => List.not_mem_nil member)
      (fun either => either.elim (fun unstamped => unstamped stamped) unordered)
  · exact iff_of_true ⟨_, List.mem_singleton_self _, rfl⟩ (.inl stamped)

/-- An order query prints the reports of its own check. -/
theorem printedBy_order {position : Nat} {cur : Ptr} (found : t.veriptr[position]? = some cur)
    (query : (t.memory cur).type = .order) :
    printedBy icl warn t cur =
      ((t.before warn position).orderReports (t.memory cur)).map (Line.mk cur cur) := by
  rw [printedBy_of_ne_flush icl warn t found (by simp [query]), ByteState.lines, query]

/-- An order query of two included ranges reports an error exactly when some byte of
either range has no stamp, some early byte has an inexact one, or some early byte is not
stamped strictly before some late byte.

The stamps of the byte state are those of the history, and fewer sections than the
largest integer leave the third condition of the comparison without effect. -/
theorem order_verdict (position : Nat) (cur : Ptr) (found : t.veriptr[position]? = some cur)
    (query : (t.memory cur).type = .order)
    (sized : 0 < (t.memory cur).size ∧ 0 < (t.memory cur).sizeLate)
    (included : Disjoint (t.memory cur).bytes (excludedBefore t.records position) ∧
      Disjoint (t.memory cur).bytesLate (excludedBefore t.records position))
    (short : (sectionAt t.records position : Int) < intMax) :
    (∃ line ∈ printedBy icl warn t cur, line.report.isOrderError = true) ↔
      (∃ b, (b ∈ (t.memory cur).bytes ∨ b ∈ (t.memory cur).bytesLate) ∧
        ∀ stamp, ¬ HasStamp t.records position b stamp) ∨
      (∃ e ∈ (t.memory cur).bytes, ∃ time, HasStamp t.records position e (.atLeast time)) ∨
      ∃ e ∈ (t.memory cur).bytes, ∃ l ∈ (t.memory cur).bytesLate, ∃ early late,
        HasStamp t.records position e early ∧ HasStamp t.records position l late ∧
          late.time ≤ early.time := by
  have summary := summarises_found t warn found
  have queried : (t.before warn position).Queried (t.memory cur) :=
    ⟨sized, summary.excluded ▸ included⟩
  have printed : (∃ line ∈ printedBy icl warn t cur, line.report.isOrderError = true) ↔
      ∃ report ∈ (t.before warn position).orderReports (t.memory cur),
        report.isOrderError = true := by
    rw [printedBy_order icl warn t found query]
    simp
  have unstamped (b : Nat) : ¬ ((t.before warn position).stamp b).isSome ↔
      ∀ stamp, ¬ HasStamp t.records position b stamp := by
    simp only [Option.isSome_iff_exists, not_exists, summary.stamp]
  rw [printed, order_reports_iff _ _ queried, ByteState.not_stamped_iff, ByteState.Unordered]
  refine or_congr ?_ (or_congr ?_ ?_)
  · simp only [unstamped]
  · simp only [summary.stamp]
  · simp only [summary.stamp]
    apply or_iff_left
    rintro ⟨e, _, early, stamped, huge⟩
    have reached := stamped.time_le
    omega

/-- The early range is flushed in the first section and the late one assigned in
the second. -/
def orderedRanges : Trace := .ofRecords
  [{ type := .assign, addr := 0, size := 4 }, { type := .flush, addr := 0, size := 4 },
    { type := .fence }, { type := .assign, addr := 8, size := 4 },
    { type := .order, addr := 0, size := 4, addrLate := 8, sizeLate := 4 }]

/-- The query is accepted, so no early byte is stamped inexactly. -/
theorem order_verdict_ordered_ranges :
    printedBy (Segments.segments Nat Int) false orderedRanges 4 = [] ∧
    ¬ ∃ e ∈ (orderedRanges.memory 4).bytes, ∃ time,
      HasStamp orderedRanges.records 4 e (.atLeast time) := by
  have silent : printedBy (Segments.segments Nat Int) false orderedRanges 4 = [] := by decide
  have included : excludedBefore orderedRanges.records 4 = ∅ :=
    excludedBefore_eq_empty (by decide)
  have verdict := order_verdict (Segments.segments Nat Int) false orderedRanges 4 4 rfl rfl
    ⟨by decide, by decide⟩ (by rw [included]; exact ⟨Set.disjoint_empty _, Set.disjoint_empty _⟩)
    (by decide)
  refine ⟨silent, fun inexact => ?_⟩
  obtain ⟨line, member, _⟩ := verdict.mpr (.inr (.inl inexact))
  rw [silent] at member
  exact List.not_mem_nil member

end Verdict

section Persistency

variable (icl : Icl) (warn : Bool) (t : Trace)

/-- The first fenced flush of the byte behind one of its assigns. -/
def FirstFlush (records : List Metadata) (b assign first : Nat) : Prop :=
  assign < first ∧ FlushedAt records b first ∧
    ∀ i, assign < i → i < first → ¬ FlushedAt records b i

/-- A byte flushed behind an assign has a first flush there. -/
theorem exists_firstFlush {records : List Metadata} {b assign flush : Nat}
    (after : assign < flush) (flushed : FlushedAt records b flush) :
    ∃ first, FirstFlush records b assign first ∧ first ≤ flush := by
  classical
  have present : ∃ i, assign < i ∧ FlushedAt records b i := ⟨flush, after, flushed⟩
  obtain ⟨behind, found⟩ := Nat.find_spec present
  refine ⟨Nat.find present, ⟨behind, found, fun i later before held => ?_⟩,
    Nat.find_min' present ⟨after, flushed⟩⟩
  exact Nat.find_min present before ⟨later, held⟩

/-- The last operation on a byte, when it is a flush, comes behind the byte's
last assign. -/
theorem lastAssign_lt_flush {records : List Metadata} {position b assign flush : Nat}
    (assigned : LastBefore (AssignedAt records b) position assign)
    (last : LastOperation records position b flush) (flushed : FlushedAt records b flush) :
    assign < flush := by
  rcases Nat.lt_trichotomy assign flush with earlier | rfl | later
  · exact earlier
  · exact absurd flushed (not_flushedAt_of_assignedAt assigned.2.1)
  · exact absurd (.inl assigned.2.1) (last.2.2 assign later assigned.1)

/-- The last operation on a byte is its last assign, if no flush has come since. -/
theorem lastOperation_eq_lastAssign {records : List Metadata} {position b assign last : Nat}
    (assigned : LastBefore (AssignedAt records b) position assign)
    (operation : LastOperation records position b last)
    (unflushed : ∀ i, assign < i → i < position → ¬ FlushedAt records b i) : last = assign := by
  rcases Nat.lt_trichotomy last assign with earlier | same | later
  · exact absurd (.inl assigned.2.1) (operation.2.2 assign earlier assigned.1)
  · exact same
  · cases operation.2.1 with
    | inl again => exact absurd again (assigned.2.2 last later operation.1)
    | inr flushed => exact absurd flushed (unflushed last later operation.1)

variable {t} in
/-- An accepted query of two ranges finds stamps on all bytes of both, and the
comparison does not fail. -/
theorem accepted_stamps {position : Nat} {cur : Ptr} (found : t.veriptr[position]? = some cur)
    (query : (t.memory cur).type = .order)
    (queried : (t.before warn position).Queried (t.memory cur))
    (accepted : ∀ line ∈ printedBy icl warn t cur, line.report.isOrderError = false) :
    (t.before warn position).Stamped (t.memory cur) ∧
      ¬ (t.before warn position).Unordered (t.memory cur) := by
  have passed : ¬ ∃ report ∈ (t.before warn position).orderReports (t.memory cur),
      report.isOrderError = true := by
    rintro ⟨report, member, error⟩
    have silent := accepted ⟨cur, cur, report⟩ (by
      rw [printedBy_order icl warn t found query]
      exact List.mem_map_of_mem member)
    exact absurd (error.symm.trans silent) (by decide)
  rwa [order_reports_iff _ _ queried, not_or, not_not] at passed

/-- An accepted order query of two ranges bounds every early byte by every late
one. The last operation on the early byte is a fenced flush, in a section strictly
before the section of the last operation on the late byte. So the first fenced
flush behind the last assign of the early byte is strictly before it too, and if
the late byte has not been flushed since its last assign, that operation is the
assign. -/
theorem accepted_order_bounds (included : ∀ m ∈ t.records, m.type ≠ .exclude) (position : Nat)
    (cur : Ptr) (found : t.veriptr[position]? = some cur) (query : (t.memory cur).type = .order)
    (sized : 0 < (t.memory cur).size ∧ 0 < (t.memory cur).sizeLate)
    (accepted : ∀ line ∈ printedBy icl warn t cur, line.report.isOrderError = false) :
    ∀ e ∈ (t.memory cur).bytes, ∀ l ∈ (t.memory cur).bytesLate, ∃ flush last,
      LastOperation t.records position e flush ∧ FlushedAt t.records e flush ∧
      LastOperation t.records position l last ∧
      sectionAt t.records flush < sectionAt t.records last ∧
      (∀ assign, LastBefore (AssignedAt t.records e) position assign →
        ∃ first, FirstFlush t.records e assign first ∧ first < position ∧
          sectionAt t.records first < sectionAt t.records last) ∧
      ∀ assign, LastBefore (AssignedAt t.records l) position assign →
        (∀ i, assign < i → i < position → ¬ FlushedAt t.records l i) → last = assign := by
  have summary := summarises_found t warn found
  have nothing : (t.before warn position).excluded = ∅ := by
    rw [summary.excluded]
    exact excludedBefore_eq_empty fun m member => included m (List.mem_of_mem_take member)
  have queried : (t.before warn position).Queried (t.memory cur) := by
    rw [ByteState.Queried, nothing]
    exact ⟨sized, Set.disjoint_empty _, Set.disjoint_empty _⟩
  obtain ⟨stamped, ordered⟩ := accepted_stamps icl warn found query queried accepted
  intro e inEarly l inLate
  obtain ⟨early, foundEarly⟩ := Option.isSome_iff_exists.mp (stamped.1 e inEarly)
  obtain ⟨late, foundLate⟩ := Option.isSome_iff_exists.mp (stamped.2 l inLate)
  obtain ⟨flush, lastEarly, ⟨_, rfl⟩ | ⟨flushed, rfl⟩⟩ := (summary.stamp e early).mp foundEarly
  · exact absurd (.inl ⟨e, inEarly, _, foundEarly⟩) ordered
  obtain ⟨last, lastLate, kind⟩ := (summary.stamp l late).mp foundLate
  have time : late.time = sectionAt t.records last := by
    rcases kind with ⟨_, rfl⟩ | ⟨_, rfl⟩ <;> rfl
  have before : sectionAt t.records flush < sectionAt t.records last := by
    by_contra unordered
    exact ordered (.inr (.inl ⟨e, inEarly, l, inLate, _, late, foundEarly, foundLate,
      time ▸ not_lt.mp unordered⟩))
  refine ⟨flush, last, lastEarly, flushed, lastLate, before, fun assign assigned => ?_,
    fun assign assigned => lastOperation_eq_lastAssign assigned lastLate⟩
  obtain ⟨first, isFirst, upto⟩ :=
    exists_firstFlush (lastAssign_lt_flush assigned lastEarly flushed) flushed
  exact ⟨first, isFirst, lt_of_le_of_lt upto lastEarly.1,
    lt_of_le_of_lt (sectionAt_mono t.records upto) before⟩

/-- The flush is in the first section and the late assign in the second one. -/
theorem accepted_order_bounds_ordered_ranges :
    (∀ line ∈ printedBy (Segments.segments Nat Int) false orderedRanges 4,
      line.report.isOrderError = false) ∧
    ∃ flush last, FlushedAt orderedRanges.records 0 flush ∧
      LastOperation orderedRanges.records 4 8 last ∧
      sectionAt orderedRanges.records flush < sectionAt orderedRanges.records last := by
  have accepted : ∀ line ∈ printedBy (Segments.segments Nat Int) false orderedRanges 4,
      line.report.isOrderError = false := by decide
  obtain ⟨flush, last, _, flushed, lastLate, before, _⟩ :=
    accepted_order_bounds (Segments.segments Nat Int) false orderedRanges (by decide) 4 4 rfl rfl
      ⟨by decide, by decide⟩ accepted 0 ⟨by decide, by decide⟩ 8 ⟨by decide, by decide⟩
  exact ⟨accepted, flush, last, flushed, lastLate, before⟩

/-- No value of the late range can reach memory before one of the early range:
every byte of both has been assigned, and the first fenced flush of the early one
behind its last assign is in a section strictly before the last assign of the
late one. -/
def PersistedBefore (records : List Metadata) (position : Nat) (m : Metadata) : Prop :=
  ∀ e ∈ m.bytes, ∀ l ∈ m.bytesLate, ∃ assign assignLate first,
    LastBefore (AssignedAt records e) position assign ∧
    LastBefore (AssignedAt records l) position assignLate ∧
    FirstFlush records e assign first ∧ first < position ∧
    sectionAt records first < sectionAt records assignLate

/-- The late range is assigned in the section of the early flush and flushed in
the next one. -/
def lateFlush : Trace := .ofRecords
  [{ type := .assign, addr := 0, size := 4 }, { type := .assign, addr := 8, size := 4 },
    { type := .flush, addr := 0, size := 4 }, { type := .fence },
    { type := .flush, addr := 8, size := 4 }, { type := .fence },
    { type := .order, addr := 0, size := 4, addrLate := 8, sizeLate := 4 }]

/-- Both ranges are flushed and never assigned. -/
def flushedOnly : Trace := .ofRecords
  [{ type := .flush, addr := 0, size := 4 }, { type := .fence },
    { type := .flush, addr := 8, size := 4 }, { type := .fence },
    { type := .order, addr := 0, size := 4, addrLate := 8, sizeLate := 4 }]

/-- Both queries are accepted. In the first trace the late value may reach memory
in the section of the early flush, and in the second there is no value at all. -/
theorem accepted_order_not_persisted_before :
    ((∀ m ∈ lateFlush.records, m.type ≠ .exclude) ∧
      printedBy (Segments.segments Nat Int) false lateFlush 6 = [] ∧
      ¬ PersistedBefore lateFlush.records 6 (lateFlush.memory 6)) ∧
    (∀ m ∈ flushedOnly.records, m.type ≠ .exclude) ∧
      printedBy (Segments.segments Nat Int) false flushedOnly 4 = [] ∧
      ¬ PersistedBefore flushedOnly.records 4 (flushedOnly.memory 4) := by
  refine ⟨⟨by decide, by decide, fun ordered => ?_⟩, by decide, by decide, fun ordered => ?_⟩
  · obtain ⟨_, assignLate, first, _, ⟨below, ⟨m, found, assign, _⟩, _⟩, _, _, before⟩ :=
      ordered 0 ⟨by decide, by decide⟩ 8 ⟨by decide, by decide⟩
    have early : assignLate ≤ 1 := by
      by_contra behind
      obtain rfl | rfl | rfl | rfl :
          assignLate = 2 ∨ assignLate = 3 ∨ assignLate = 4 ∨ assignLate = 5 := by omega
      all_goals exact absurd (Option.some.inj found ▸ assign) (by decide)
    have sectionLate : sectionAt lateFlush.records assignLate ≤ 1 :=
      sectionAt_mono lateFlush.records early
    have positive : 1 ≤ sectionAt lateFlush.records first := Nat.le_add_right 1 _
    omega
  · obtain ⟨_, _, _, ⟨_, ⟨m, found, assign, _⟩, _⟩, _⟩ :=
      ordered 0 ⟨by decide, by decide⟩ 8 ⟨by decide, by decide⟩
    have unassigned : ∀ m ∈ flushedOnly.records, m.type ≠ .assign := by decide
    exact unassigned m (List.mem_of_getElem? found) assign

end Persistency

end PMTest
