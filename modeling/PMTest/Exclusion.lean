import PMTest.Erasure
import PMTest.Segments

/-!
# What an exclusion hides

An exclude record takes a range out of the checks. The checker implements it
record by record: an assign or a flush that touches one excluded byte is ignored
as a whole, so it is also lost for the bytes it covers outside the excluded range.

The runs with and without one exclude record are compared byte by byte. They can
disagree about a byte outside the excluded range only while the last operation on
it is one that the exclusion made the checker ignore. All queries that read no
such byte get the same answer.
-/

namespace PMTest

open Intervals Lookahead

section Simulation

/-- The record at the position operates on the byte, and is ignored only because
of the exclusion: it meets an excluded byte, but none that is excluded in the
trace without the exclude record. -/
def DroppedAt (t : Trace) (exclusion : Ptr) (b position : Nat) : Prop :=
  ∃ m, t.records[position]? = some m ∧
    (m.type = .assign ∨ (m.type = .flush ∧ FencedAfter t.records position)) ∧ b ∈ m.bytes ∧
    ¬ Disjoint m.bytes (excludedBefore t.records position) ∧
    Disjoint m.bytes (excludedBefore (t.without exclusion).records
      (keptBefore t (fun p => p ≠ exclusion) position))

/-- An operation on the byte has been dropped in front of the position, and no
other operation on it has been processed since. -/
def Hidden (t : Trace) (exclusion : Ptr) (position b : Nat) : Prop :=
  Pending (DroppedAt t exclusion b)
    (fun i => AssignedAt t.records b i ∨ FlushedAt t.records b i) position

/-- A state of the run with the exclusion against one of the run without it. More
is excluded, but only inside the excluded range, and the bytes that are not hidden
look the same. -/
structure SameOutside (t : Trace) (exclusion : Ptr) (position : Nat) (v w : ByteState) : Prop where
  time : w.time = v.time
  depth : w.depth = v.depth
  wider : w.excluded ⊆ v.excluded
  inside : v.excluded ⊆ w.excluded ∪ (t.memory exclusion).bytes
  bytes : ∀ b, ((b ∈ w.dirty ↔ b ∈ v.dirty) ∧ w.stamp b = v.stamp b) ∨
    Hidden t exclusion position b
  stored : ∀ c, Disjoint (t.memory c).bytes (t.memory exclusion).bytes →
    (c ∈ w.stored ↔ c ∈ v.stored)

variable (warn : Bool) {t : Trace} {exclusion : Ptr} {position : Nat} {cur : Ptr} {v w : ByteState}

/-- Ranges outside the excluded one are excluded in both runs or in neither. -/
theorem SameOutside.disjoint_iff (same : SameOutside t exclusion position v w) {range : Set Nat}
    (apart : Disjoint range (t.memory exclusion).bytes) :
    Disjoint range w.excluded ↔ Disjoint range v.excluded := by
  constructor
  · intro outside
    exact (outside.sup_right apart).mono_right same.inside
  · exact fun outside => outside.mono_right same.wider

/-- A larger excluded set stays larger, by no more than before. -/
theorem excludeStep_mono {few many extra : Set Nat} (m : Metadata) (wider : few ⊆ many)
    (inside : many ⊆ few ∪ extra) :
    excludeStep few m ⊆ excludeStep many m ∧ excludeStep many m ⊆ excludeStep few m ∪ extra := by
  unfold excludeStep
  split
  · refine ⟨Set.union_subset_union_left _ wider, ?_⟩
    rw [Set.union_right_comm]
    exact Set.union_subset_union_left _ inside
  · refine ⟨Set.sdiff_subset_sdiff_left wider, fun b member => ?_⟩
    exact (inside member.1).imp (fun excluded => ⟨excluded, member.2⟩) id
  · exact ⟨wider, inside⟩

/-- A record that is not dropped touches the same bytes in both runs. It meets excluded
bytes in both or in neither, since meeting them in the longer run alone is what drops
it. -/
theorem SameOutside.touches_iff (same : SameOutside t exclusion position v w)
    (found : t.veriptr[position]? = some cur) (processed : ¬ t.Skipped position cur)
    (summary : Summarises t.records position v)
    (shorter : Summarises (t.without exclusion).records
      (keptBefore t (fun p => p ≠ exclusion) position) w)
    {b : Nat} (tracked : ¬ DroppedAt t exclusion b position) {type : MetadataType}
    (operation : type = .assign ∨ type = .flush) :
    w.Touches type (t.memory cur) b ↔ v.Touches type (t.memory cur) b := by
  constructor
  · rintro ⟨typed, member, apart⟩
    refine ⟨typed, member, ?_⟩
    by_contra excluded
    refine tracked ⟨_, t.record_found found, ?_, member, summary.excluded ▸ excluded,
      shorter.excluded ▸ apart⟩
    rcases operation with rfl | rfl
    · exact .inl typed
    · refine .inr ⟨typed, ?_⟩
      by_contra unfenced
      exact processed ((skipped_iff t position cur).mpr ⟨typed, unfenced⟩)
  · rintro ⟨typed, member, apart⟩
    exact ⟨typed, member, apart.mono_right same.wider⟩

/-- A record that operates on no byte leaves the hidden bytes hidden. -/
theorem hidden_succ {b : Nat}
    (untouched : ¬ (AssignedAt t.records b position ∨ FlushedAt t.records b position))
    (hidden : Hidden t exclusion position b) : Hidden t exclusion (position + 1) b :=
  (pending_succ _ _ _).mpr (.inr ⟨hidden, untouched⟩)

/-- A record of both traces keeps the relation: a dropped operation hides its
bytes, a processed one brings them into agreement. -/
theorem SameOutside.next (same : SameOutside t exclusion position v w)
    (found : t.veriptr[position]? = some cur) (processed : ¬ t.Skipped position cur)
    (summary : Summarises t.records position v)
    (shorter : Summarises (t.without exclusion).records
      (keptBefore t (fun p => p ≠ exclusion) position) w) :
    SameOutside t exclusion (position + 1) (v.next t.memory cur) (w.next t.memory cur) := by
  obtain ⟨wider, inside⟩ := excludeStep_mono (t.memory cur) same.wider same.inside
  refine ⟨?_, ?_, wider, inside, fun b => ?_, fun c apart => ?_⟩
  · simp only [ByteState.next, same.time]
  · simp only [ByteState.next, same.depth]
  · by_cases dropped : DroppedAt t exclusion b position
    · exact .inr ((pending_succ _ _ _).mpr (.inl dropped))
    · have assign := same.touches_iff found processed summary shorter dropped (.inl rfl)
      have flush := same.touches_iff found processed summary shorter dropped (.inr rfl)
      by_cases touched : AssignedAt t.records b position ∨ FlushedAt t.records b position
      · have operated : v.Touches .assign (t.memory cur) b ∨ v.Touches .flush (t.memory cur) b :=
          touched.imp (summary.touches_iff (t.record_found found) .assign b).mpr
            fun flushed => (summary.touches_iff (t.record_found found) .flush b).mpr flushed.1
        have settled (unassigned : ¬ v.Touches .assign (t.memory cur) b)
            (unflushed : ¬ v.Touches .flush (t.memory cur) b) : False :=
          operated.elim unassigned unflushed
        exact .inl ⟨ByteState.next_dirty_congr assign flush fun no nor => (settled no nor).elim,
          ByteState.next_stamp_congr assign flush same.time fun no nor => (settled no nor).elim⟩
      · rcases same.bytes b with ⟨dirty, stamp⟩ | hidden
        · exact .inl ⟨ByteState.next_dirty_congr assign flush fun _ _ => dirty,
            ByteState.next_stamp_congr assign flush same.time fun _ _ => stamp⟩
        · exact .inr (hidden_succ touched hidden)
  · rw [ByteState.mem_next_stored, ByteState.mem_next_stored, same.stored c apart, same.depth]
    refine or_congr_right (and_congr_right ?_)
    rintro rfl
    rw [ByteState.Effective, ByteState.Effective, same.disjoint_iff apart]

/-- The exclude record itself keeps the relation, as a step of the run that has it. -/
theorem SameOutside.exclude (same : SameOutside t exclusion position v w)
    (found : t.veriptr[position]? = some exclusion)
    (isExclude : (t.memory exclusion).type = .exclude) :
    SameOutside t exclusion (position + 1) (v.next t.memory exclusion) w := by
  have quiet := v.next_quiet t.memory exclusion (by rw [isExclude]; decide)
    (by rw [isExclude]; decide)
  simp only [isExclude, excludeStep, depthStep, reduceCtorEq, false_and, or_false,
    if_false] at quiet
  rw [quiet]
  refine ⟨same.time, same.depth, same.wider.trans Set.subset_union_left,
    Set.union_subset same.inside Set.subset_union_right, fun b => ?_, same.stored⟩
  refine (same.bytes b).imp id (hidden_succ (not_operation (t.record_found found) ?_ ?_ b))
  · rw [isExclude]
    decide
  · exact fun flush => absurd (isExclude.symm.trans flush) (by decide)

/-- The runs with and without an exclude record stay the same outside its range. The
exclude record itself is a step of one run, every other record one of both. -/
theorem same_outside (isExclude : (t.memory exclusion).type = .exclude) (later : Nat)
    (bound : later ≤ t.veriptr.length) :
    SameOutside t exclusion later (t.before warn later)
      ((t.without exclusion).before warn (keptBefore t (fun p => p ≠ exclusion) later)) := by
  refine keep_simulates warn (unfenced_without (by rw [isExclude]; decide))
    (SameOutside t exclusion) ?_ ?_ ?_ ?_ later bound
  · intro position cur v w found _ processed summary shorter same
    exact same.next found processed summary shorter
  · intro position cur v w found _ skipped same
    refine { same with bytes := fun b => (same.bytes b).imp id ?_ }
    exact hidden_succ (not_operation_of_skipped found skipped b)
  · intro position cur v w found erased _ same
    obtain rfl := eq_of_erased erased
    rw [if_neg fun skipped => absurd (isExclude.symm.trans skipped.1) (by decide)]
    exact same.exclude found isExclude
  · exact ⟨rfl, rfl, Set.Subset.rfl, Set.subset_union_left, fun b => .inl ⟨Iff.rfl, rfl⟩,
      fun c _ => Iff.rfl⟩

end Simulation

section Verdicts

/-- The range avoids the excluded one, and no byte of it is hidden. -/
def Unaffected (t : Trace) (exclusion : Ptr) (position : Nat) (range : Set Nat) : Prop :=
  Disjoint range (t.memory exclusion).bytes ∧ ∀ b ∈ range, ¬ Hidden t exclusion position b

variable {t : Trace} {exclusion : Ptr} {position : Nat} {v w : ByteState}

/-- The two runs answer a persist check of an unaffected range alike. -/
theorem SameOutside.persistReports_eq (same : SameOutside t exclusion position v w) {m : Metadata}
    (unaffected : Unaffected t exclusion position m.bytes) :
    w.persistReports m = v.persistReports m :=
  ByteState.persistReports_congr (same.disjoint_iff unaffected.1) fun b member =>
    ((same.bytes b).resolve_right (unaffected.2 b member)).1

/-- The two runs answer an order query of unaffected ranges alike. -/
theorem SameOutside.orderReports_eq (same : SameOutside t exclusion position v w) {m : Metadata}
    (unaffected : Unaffected t exclusion position m.bytes)
    (unaffectedLate : Unaffected t exclusion position m.bytesLate) :
    w.orderReports m = v.orderReports m :=
  ByteState.orderReports_congr (same.disjoint_iff unaffected.1)
    (same.disjoint_iff unaffectedLate.1)
    (fun b member => ((same.bytes b).resolve_right (unaffected.2 b member)).2)
    (fun b member => ((same.bytes b).resolve_right (unaffectedLate.2 b member)).2)

/-- What an outermost transaction end prints: the persist reports of the stored
assigns. -/
theorem mem_lines_end (warn : Bool) {memory : Ptr → Metadata} {cur : Ptr} (v : ByteState)
    (ends : (memory cur).type = .transactionEnd) (line : Line) :
    line ∈ v.lines warn memory cur ↔
      v.depth - 1 = 0 ∧ line.checked ∈ v.stored ∧ line.processed = cur ∧
        line.report ∈ v.persistReports (memory line.checked) := by
  simp only [ByteState.lines, ends]
  split_ifs with outermost
  · simp only [outermost, true_and, List.mem_flatMap, List.mem_map]
    constructor
    · rintro ⟨stored, member, report, printed, rfl⟩
      exact ⟨member, rfl, printed⟩
    · rintro ⟨member, rfl, printed⟩
      exact ⟨line.checked, member, line.report, printed, rfl⟩
  · simp [outermost]

variable (icl : Icl) (warn : Bool) (t) (exclusion)

/-- An exclude record leaves the verdicts about unaffected ranges as they are in the
trace without it: those of persist checks, of order queries, and of the assigns that a
transaction end checks again.

The two runs are the same outside of the excluded range and the hidden bytes in front of
every position, and a check reads the bytes of its ranges only. -/
theorem exclusion_keeps_unaffected (isExclude : (t.memory exclusion).type = .exclude)
    (later : Nat) (cur : Ptr) (found : t.veriptr[later]? = some cur) :
    ((t.memory cur).type = .persist → Unaffected t exclusion later (t.memory cur).bytes →
      printedBy icl warn t cur = printedBy icl warn (t.without exclusion) cur) ∧
    ((t.memory cur).type = .order → Unaffected t exclusion later (t.memory cur).bytes →
      Unaffected t exclusion later (t.memory cur).bytesLate →
      printedBy icl warn t cur = printedBy icl warn (t.without exclusion) cur) ∧
    ((t.memory cur).type = .transactionEnd → ∀ line : Line,
      Unaffected t exclusion later (t.memory line.checked).bytes →
      (line ∈ printedBy icl warn t cur ↔
        line ∈ printedBy icl warn (t.without exclusion) cur)) := by
  have same := same_outside warn isExclude later (List.getElem?_eq_some_iff.mp found).1.le
  have printed (other : (t.memory cur).type ≠ .exclude) (processed : (t.memory cur).type ≠ .flush) :
      printedBy icl warn (t.without exclusion) cur =
        ((t.without exclusion).before warn
          (keptBefore t (fun p => p ≠ exclusion) later)).lines warn t.memory cur := by
    have different : cur ≠ exclusion := fun equal => other (equal ▸ isExclude)
    rw [printedBy_without icl warn (by rw [isExclude]; decide) found different,
      if_neg fun skipped => processed skipped.1]
  refine ⟨fun persist unaffected => ?_, fun order unaffected unaffectedLate => ?_,
    fun ends line unaffected => ?_⟩
  · rw [printedBy_of_ne_flush icl warn t found (by rw [persist]; decide),
      printed (by rw [persist]; decide) (by rw [persist]; decide)]
    simp only [ByteState.lines, persist, same.persistReports_eq unaffected]
  · rw [printedBy_of_ne_flush icl warn t found (by rw [order]; decide),
      printed (by rw [order]; decide) (by rw [order]; decide)]
    simp only [ByteState.lines, order, same.orderReports_eq unaffected unaffectedLate]
  · rw [printedBy_of_ne_flush icl warn t found (by rw [ends]; decide),
      printed (by rw [ends]; decide) (by rw [ends]; decide), mem_lines_end warn _ ends,
      mem_lines_end warn _ ends, same.depth, same.stored _ unaffected.1,
      same.persistReports_eq unaffected]

/-- An assign that straddles the excluded range is dropped, and one behind it
writes the rest of its bytes again. -/
def writtenAgain : Trace :=
  .ofRecords
    [{ type := .exclude, addr := 0, size := 4 }, { type := .assign, addr := 0, size := 8 },
      { type := .assign, addr := 4, size := 4 }, { type := .persist, addr := 4, size := 4 }]

/-- The query finds the second assign in both traces. -/
theorem exclusion_keeps_unaffected_written_again :
    Unaffected writtenAgain 0 3 (writtenAgain.memory 3).bytes ∧
    printedBy (Segments.segments Nat Int) false writtenAgain 3 =
      printedBy (Segments.segments Nat Int) false (writtenAgain.without 0) 3 := by
  have excluded : excludedBefore writtenAgain.records 2 = (writtenAgain.memory 0).bytes :=
    Set.empty_union _
  have apart : Disjoint (writtenAgain.memory 3).bytes (writtenAgain.memory 0).bytes := by
    apply Set.disjoint_left.mpr
    intro b member other
    exact absurd (Nat.lt_of_le_of_lt member.1 other.2) (by decide)
  have unaffected : Unaffected writtenAgain 0 3 (writtenAgain.memory 3).bytes := by
    refine ⟨apart, fun b member => ?_⟩
    have assigned : AssignedAt writtenAgain.records b 2 :=
      ⟨writtenAgain.memory 2, rfl, rfl, member, excluded ▸ apart⟩
    rintro ⟨i, before, dropped, since⟩
    obtain earlier | rfl : i < 2 ∨ i = 2 := by omega
    · exact since 2 earlier (by decide) (.inl assigned)
    · obtain ⟨m, located, _, _, meets, _⟩ := dropped
      obtain rfl : writtenAgain.memory 2 = m := Option.some.inj located
      exact meets (excluded ▸ apart)
  exact ⟨unaffected, (exclusion_keeps_unaffected writtenAgain 0 (Segments.segments Nat Int) false
    rfl 3 3 rfl).1 rfl unaffected⟩

/-- Without the second assign the verdict changes: the range is not excluded, but
its only assign is dropped with the excluded bytes. -/
def straddled : Trace :=
  .ofRecords
    [{ type := .exclude, addr := 0, size := 4 }, { type := .assign, addr := 0, size := 8 },
      { type := .persist, addr := 4, size := 4 }]

/-- The query is about four bytes behind the excluded ones, and the error about them is
lost. -/
theorem exclusion_hides_neighbour :
    (straddled.memory 0).type = .exclude ∧ (straddled.memory 2).type = .persist ∧
    Disjoint (straddled.memory 2).bytes (straddled.memory 0).bytes ∧
    printedBy (Segments.segments Nat Int) false straddled 2 = [] ∧
    printedBy (Segments.segments Nat Int) false (straddled.without 0) 2 =
      [⟨2, 2, .persistError [] 0 4 8⟩] := by
  refine ⟨rfl, rfl, Set.disjoint_left.mpr fun b member other => ?_, by decide, by decide⟩
  exact absurd (Nat.lt_of_le_of_lt member.1 other.2) (by decide)

end Verdicts

end PMTest
