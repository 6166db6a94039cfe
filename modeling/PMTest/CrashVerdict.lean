import PMTest.OrderVerdict
import PMTest.PersistBeforeFence
import PMTest.PersistentMemory

/-!
# What the verdicts say about a crash

The records of a trace are the events of a program on a persistent memory: an
assign stores, a flush writes back and a fence waits. A persist check should fail
exactly when a crash may lose a value of its range. It does, once one fence is
added in front of the check if the trace holds any fence behind it.

An order query should be accepted only if the machine, wherever it stops, never
leaves the late value without the early one. This holds when the late range has
not been flushed since it was assigned. Conversely a rejected query points to a
crash that shows the wrong order, as long as no early byte was flushed again
without need.
-/

namespace PMTest

open Lookahead PersistentMemory

section Events

/-- What a record does to the memory. -/
def Metadata.event (m : Metadata) : Event Nat :=
  match m.type with
  | .assign => .store m.bytes
  | .flush => .writeBack m.bytes
  | .fence => .fence
  | _ => .other

/-- The program that the records of a trace are taken from. -/
def memoryEvents (records : List Metadata) : List (Event Nat) := records.map Metadata.event

/-- An assign is the only record that stores. -/
theorem Metadata.event_stores (m : Metadata) (b : Nat) :
    m.event.Stores b ↔ m.type = .assign ∧ b ∈ m.bytes := by
  unfold Metadata.event
  split <;> simp_all [Event.Stores]

/-- A flush is the only one that writes back. -/
theorem Metadata.event_writesBack (m : Metadata) (b : Nat) :
    m.event.WritesBack b ↔ m.type = .flush ∧ b ∈ m.bytes := by
  unfold Metadata.event
  split <;> simp_all [Event.WritesBack]

/-- A fence is the only one that waits. -/
theorem Metadata.event_fences (m : Metadata) : m.event.Fences ↔ m.type = .fence := by
  unfold Metadata.event
  split <;> simp_all [Event.Fences]

variable (records : List Metadata) (b i : Nat)

/-- Every record is one event, so positions in the trace are positions in the program. -/
theorem memoryEvents_length : (memoryEvents records).length = records.length := List.length_map _

/-- The program stores to a byte where an assign of the trace covers it. -/
theorem stores_at_iff :
    OccursAt (Event.Stores b) (memoryEvents records) i ↔ CoveredAt records .assign b i := by
  simp only [memoryEvents, occursAt_map, Metadata.event_stores]
  rfl

/-- The program writes a byte back where a flush of the trace covers it. -/
theorem writesBack_at_iff :
    OccursAt (Event.WritesBack b) (memoryEvents records) i ↔ CoveredAt records .flush b i := by
  simp only [memoryEvents, occursAt_map, Metadata.event_writesBack]
  rfl

/-- The program waits where the trace has a fence. -/
theorem fences_at_iff : OccursAt Event.Fences (memoryEvents records) i ↔ FenceAt records i := by
  simp only [memoryEvents, occursAt_map, Metadata.event_fences]
  rfl

/-- A covered position holds a record of the type. -/
theorem CoveredAt.typed {past : List Metadata} {type : MetadataType} {b i : Nat}
    (covered : CoveredAt past type b i) : past[i]?.map Metadata.type = some type := by
  obtain ⟨m, found, typed, _⟩ := covered
  rw [found, Option.map_some, typed]

/-- Without exclude records the covered positions are the effective ones. -/
theorem coveredAt_take_iff {records : List Metadata} {position : Nat}
    (bound : position ≤ records.length)
    (included : ∀ m ∈ records.take position, m.type ≠ .exclude) (type : MetadataType) (b i : Nat) :
    CoveredAt (records.take position) type b i ↔ i < position ∧ EffectiveAt records type b i := by
  constructor
  · intro covered
    have below : i < position := List.length_take_of_le bound ▸ lt_of_coveredAt covered
    exact ⟨below, (effectiveAt_iff_covered below included type b).mpr covered⟩
  · rintro ⟨below, effective⟩
    exact (effectiveAt_iff_covered below included type b).mp effective

end Events

section Persist

variable (icl : Icl) (warn : Bool)

open Classical in
/-- The program that a check is judged by: the records in front of it, and a fence
if the trace has one behind it. -/
noncomputable def judgedProgram (records : List Metadata) (position : Nat) : List (Event Nat) :=
  memoryEvents (records.take position) ++ if FencedAfter records position then [.fence] else []

/-- A flush is completed in front of a check exactly when the pass applies it.

The pass applies a flush if any fence of the trace comes behind it. If one comes behind
the check, the granted fence completes all flushes in front of the check. If none does,
a flush counts when a fence stands between it and the check, which is what the program
has. -/
theorem completed_judged_iff {records : List Metadata} {position : Nat}
    (bound : position ≤ records.length) (check : ¬ FenceAt records position)
    (included : ∀ m ∈ records.take position, m.type ≠ .exclude) (b store : Nat) :
    Completed (judgedProgram records position) b store ↔
      ∃ flush, store < flush ∧ flush < position ∧ FlushedAt records b flush := by
  have flushed (flush : Nat) := coveredAt_take_iff bound included .flush b flush
  have fences : (Event.fence : Event Nat).Fences := trivial
  unfold judgedProgram
  split_ifs with later
  · -- the fence behind the check completes all flushes in front of it
    rw [completed_concat_fence fences]
    refine exists_congr fun flush => and_congr_right fun _ => ?_
    rw [writesBack_at_iff, flushed]
    refine and_congr_right fun below => (and_iff_left ?_).symm
    exact (fencedAfter_iff below check).mpr (.inr later)
  · rw [List.append_nil]
    simp only [Completed, writesBack_at_iff, fences_at_iff, flushed]
    constructor
    · rintro ⟨flush, fence, after, before, ⟨below, effective⟩, fenced⟩
      exact ⟨flush, after, below, effective,
        (fencedAfter_iff below check).mpr (.inl ⟨fence, before, fenced⟩)⟩
    · rintro ⟨flush, after, below, effective, fenced⟩
      obtain ⟨fence, before, found⟩ := ((fencedAfter_iff below check).mp fenced).resolve_right later
      exact ⟨flush, fence, after, before, ⟨below, effective⟩, found⟩

/-- In front of a check a byte is unflushed exactly when a crash may lose it: some store
to it is not completed. -/
theorem loses_judged_iff {records : List Metadata} {position : Nat}
    (bound : position ≤ records.length) (check : ¬ FenceAt records position)
    (included : ∀ m ∈ records.take position, m.type ≠ .exclude) (b : Nat) :
    Loses (judgedProgram records position) b ↔ Unflushed records position b := by
  have stores (store : Nat) : OccursAt (Event.Stores b) (judgedProgram records position) store ↔
      store < position ∧ AssignedAt records b store := by
    rw [AssignedAt, ← coveredAt_take_iff bound included, ← stores_at_iff, judgedProgram]
    split_ifs
    · simp [occursAt_concat, Event.Stores]
    · rw [List.append_nil]
  rw [loses_iff, Unflushed, Pending]
  simp only [stores, completed_judged_iff bound check included, not_exists, not_and, and_assoc]

/-- A persist check, be it a query or one of those at the end of the outermost
transaction, fails exactly when some crash loses a value of the checked range, where one
fence is granted if any follows in the trace.

The check fails when a byte of the range is unflushed, and these are the bytes that a
crash of the judged program may lose. -/
theorem persist_check_exact_for_crashes (t : Trace) (position : Nat) (cur checked : Ptr)
    (check : CheckedAt t position cur checked)
    (included : ∀ m ∈ t.records.take position, m.type ≠ .exclude) :
    CheckFails icl warn t cur checked ↔
      ∃ b ∈ (t.memory checked).bytes, Loses (judgedProgram t.records position) b := by
  have found := t.record_found check.1
  have bound : position ≤ t.records.length := (List.getElem?_eq_some_iff.mp found).1.le
  have unfenced : ¬ FenceAt t.records position := by
    rintro ⟨m, same, fence⟩
    obtain rfl : t.memory cur = m := Option.some.inj (found.symm.trans same)
    rcases check.2 with ⟨query, _⟩ | ⟨ends, _⟩
    · exact absurd (query.symm.trans fence) (by decide)
    · exact absurd (ends.symm.trans fence) (by decide)
  rw [check_fails_iff icl warn check, excludedBefore_eq_empty included]
  simp only [Set.disjoint_empty, true_and, loses_judged_iff bound unfenced included]

/-- A query behind a flush without a fence fails, and a crash loses the value. -/
theorem persist_check_exact_for_crashes_unfenced :
    CheckFails (Segments.segments Nat Int) false queryWithoutFence 2 2 ∧
    ∃ b ∈ (queryWithoutFence.memory 2).bytes,
      Loses (judgedProgram queryWithoutFence.records 2) b := by
  have fails : CheckFails (Segments.segments Nat Int) false queryWithoutFence 2 2 :=
    ⟨.persistError [] 0 0 4, rfl, by decide⟩
  exact ⟨fails, (persist_check_exact_for_crashes (Segments.segments Nat Int) false
    queryWithoutFence 2 2 2 ⟨rfl, .inl ⟨rfl, rfl⟩⟩ (by decide)).mp fails⟩

end Persist

section Order

variable (icl : Icl) (warn : Bool)

/-- Between two positions of different sections stands a fence. The induction is on the
later position: the section grows at a fence and nowhere else. -/
theorem exists_fence_between {records : List Metadata} {first last : Nat}
    (before : sectionAt records first < sectionAt records last) :
    ∃ fence, first ≤ fence ∧ fence < last ∧ FenceAt records fence := by
  induction last with
  | zero => exact absurd (sectionAt_mono records (Nat.zero_le first)) before.not_ge
  | succ last ih =>
    by_cases earlier : sectionAt records first < sectionAt records last
    · obtain ⟨fence, behind, below, found⟩ := ih earlier
      exact ⟨fence, behind, Nat.lt_succ_of_lt below, found⟩
    · have order : first ≤ last := by
        by_contra after
        exact before.not_ge (sectionAt_mono records (by omega))
      cases found : records[last]? with
      | none =>
        have same : sectionAt records (last + 1) = sectionAt records last := by
          simp [sectionAt, fencesBefore, List.take_add_one, found]
        omega
      | some m =>
        rw [sectionAt_succ found] at before
        split_ifs at before with fence
        · exact ⟨last, order, Nat.lt_succ_self last, m, found, fence⟩
        · exact absurd before earlier

/-- A fence separates the sections on its two sides. -/
theorem sectionAt_lt_of_fence {records : List Metadata} {first fence last : Nat}
    (behind : first ≤ fence) (before : fence < last) (found : FenceAt records fence) :
    sectionAt records first < sectionAt records last := by
  obtain ⟨m, located, type⟩ := found
  have raised := sectionAt_succ located
  rw [if_pos type] at raised
  have lower := sectionAt_mono records behind
  have upper : sectionAt records (fence + 1) ≤ sectionAt records last :=
    sectionAt_mono records before
  omega

section Positions

variable {records : List Metadata} {position e l : Nat}
  (bound : position ≤ records.length)
  (included : ∀ m ∈ records.take position, m.type ≠ .exclude)

include bound included

/-- In the program of a query the order of two bytes is violated when the late one has
its last assign in front of a cut and an assign of the early one is not completed there.
The general statement about programs is read in the trace, event by event. -/
theorem order_violated_iff (distinct : e ≠ l) :
    ¬ PersistsBefore (memoryEvents (records.take position)) e l ↔ ∃ cut ≤ position,
      (∀ i, cut ≤ i → i < position → ¬ AssignedAt records l i) ∧
      ∃ assign < position, AssignedAt records e assign ∧
        ∀ flush fence, assign < flush → flush < fence → fence < cut →
          EffectiveAt records .flush e flush → ¬ FenceAt records fence := by
  rw [not_persistsBefore_iff distinct, memoryEvents_length, List.length_take_of_le bound]
  refine exists_congr fun cut => and_congr_right fun below => and_congr ?_ ?_
  · simp only [stores_at_iff, coveredAt_take_iff bound included, not_and]
    rfl
  · refine exists_congr fun assign => ?_
    rw [stores_at_iff, coveredAt_take_iff bound included, and_assoc]
    refine and_congr_right fun _ => and_congr_right fun _ => ?_
    simp only [Completed, occursAt_take, writesBack_at_iff, fences_at_iff,
      coveredAt_take_iff bound included, fenceAt_take]
    constructor
    · intro uncompleted flush fence after before inside effective found
      exact uncompleted ⟨flush, fence, after, before, ⟨by omega, by omega, effective⟩, inside,
        by omega, found⟩
    · rintro uncompleted ⟨flush, fence, after, before, ⟨_, _, effective⟩, inside, _, found⟩
      exact uncompleted flush fence after before inside effective found

variable {flush assign : Nat}

/-- The last operation on the early byte is a flush in a section before the last assign
of the late byte, so the fence between the two keeps them in order. A cut that has seen
the last assign of the late byte has seen that fence too, and the fence completes the
flush and with it every store to the early byte. -/
theorem persistsBefore_of_sections (lastEarly : LastOperation records position e flush)
    (flushed : FlushedAt records e flush)
    (lastLate : LastBefore (AssignedAt records l) position assign)
    (before : sectionAt records flush < sectionAt records assign) :
    PersistsBefore (memoryEvents (records.take position)) e l := by
  rcases eq_or_ne e l with rfl | distinct
  · exact fun cut _ contents _ arrived => arrived
  by_contra violated
  obtain ⟨cut, _, seen, store, below, stored, uncompleted⟩ :=
    (order_violated_iff bound included distinct).mp violated
  have covered : assign < cut := by
    by_contra behind
    exact seen assign (not_lt.mp behind) lastLate.1 lastLate.2.1
  obtain ⟨fence, behind, inside, found⟩ := exists_fence_between before
  have after : store < flush := by
    rcases Nat.lt_trichotomy store flush with earlier | rfl | later
    · exact earlier
    · exact absurd flushed (not_flushedAt_of_assignedAt stored)
    · exact absurd (.inl stored) (lastEarly.2.2 store later below)
  have distinctPositions : flush ≠ fence := by
    rintro rfl
    obtain ⟨m, same, fence⟩ := found
    obtain ⟨⟨n, here, flush, _⟩, _⟩ := flushed
    obtain rfl : m = n := Option.some.inj (same.symm.trans here)
    exact absurd (flush.symm.trans fence) (by decide)
  exact uncompleted flush fence after (by omega) (by omega) flushed.1 found

/-- The last operation on the early byte is an assign, so its value may be missing
when the query is reached. -/
theorem not_persistsBefore_of_unflushed (distinct : e ≠ l)
    (lastEarly : LastOperation records position e assign)
    (assigned : AssignedAt records e assign) :
    ¬ PersistsBefore (memoryEvents (records.take position)) e l := by
  refine (order_violated_iff bound included distinct).mpr ⟨position, le_rfl, ?_, assign,
    lastEarly.1, assigned, ?_⟩
  · intro i behind below
    omega
  · intro flush fence after before inside effective found
    exact lastEarly.2.2 flush after (by omega) (.inr ⟨effective, fence, before, found⟩)

/-- The early byte is flushed once since its last assign, in no section before the
last assign of the late byte, so a crash right behind that assign may leave the
late value alone. -/
theorem not_persistsBefore_of_sections {assignLate : Nat} (distinct : e ≠ l)
    (lastAssign : LastBefore (AssignedAt records e) position assign)
    (once : ∀ i, assign < i → i < position → EffectiveAt records .flush e i → i = flush)
    (lastLate : LastBefore (AssignedAt records l) position assignLate)
    (unordered : sectionAt records assignLate ≤ sectionAt records flush) :
    ¬ PersistsBefore (memoryEvents (records.take position)) e l := by
  refine (order_violated_iff bound included distinct).mpr ⟨assignLate + 1, lastLate.1, ?_, assign,
    lastAssign.1, lastAssign.2.1, ?_⟩
  · exact fun i behind below => lastLate.2.2 i behind below
  · intro other fence after before inside effective found
    have below := lastLate.1
    obtain rfl := once other after (by omega) effective
    have apart : fence ≠ assignLate := by
      rintro rfl
      obtain ⟨m, same, fence⟩ := found
      obtain ⟨n, here, assign, _⟩ := lastLate.2.1
      obtain rfl : m = n := Option.some.inj (same.symm.trans here)
      exact absurd (assign.symm.trans fence) (by decide)
    exact unordered.not_gt (sectionAt_lt_of_fence before.le (by omega) found)

/-- The last assign of a byte among the records in front of a position. -/
theorem lastAssign_take_iff (b last : Nat) :
    LastAssign (records.take position) b last ↔
      LastBefore (AssignedAt records b) position last := by
  rw [LastAssign, List.length_take_of_le bound]
  refine (lastBefore_congr (fun i below => ?_) last).symm
  exact effectiveAt_iff_covered below included .assign b

/-- A byte that was not flushed since its last assign carries the stamp of that assign,
because no flush in between has replaced it. -/
theorem NeverFlushed.stamp {b : Nat} (fresh : NeverFlushed (records.take position) b) :
    ∃ assign, LastBefore (AssignedAt records b) position assign ∧
      ∀ stamp, HasStamp records position b stamp ↔
        stamp = .atLeast (sectionAt records assign) := by
  obtain ⟨assign, last, unflushed⟩ := fresh
  have lastAssign := (lastAssign_take_iff bound included b assign).mp last
  have quiet : ∀ i, assign < i → i < position → ¬ FlushedAt records b i := by
    intro i after below flushed
    exact unflushed i after ((coveredAt_take_iff bound included .flush b i).mpr ⟨below, flushed.1⟩)
  refine ⟨assign, lastAssign, fun stamp => ⟨?_, ?_⟩⟩
  · rintro ⟨last, operation, ⟨_, rfl⟩ | ⟨flushed, _⟩⟩
    · rw [lastOperation_eq_lastAssign lastAssign operation quiet]
    · obtain rfl := lastOperation_eq_lastAssign lastAssign operation quiet
      exact absurd flushed (not_flushedAt_of_assignedAt lastAssign.2.1)
  · rintro rfl
    refine ⟨assign, ⟨lastAssign.1, .inl lastAssign.2.1, fun i after below either => ?_⟩,
      .inl ⟨lastAssign.2.1, rfl⟩⟩
    exact either.elim (lastAssign.2.2 i after below) (quiet i after below)

end Positions

/-- An assigned byte carries a stamp. -/
theorem exists_hasStamp {records : List Metadata} {position b last : Nat}
    (assigned : LastBefore (AssignedAt records b) position last) :
    ∃ stamp, HasStamp records position b stamp := by
  obtain ⟨i, operation⟩ := (exists_lastBefore (fun i => AssignedAt records b i ∨
    FlushedAt records b i) position).mpr ⟨last, assigned.1, .inl assigned.2.1⟩
  rcases operation.2.1 with assign | flush
  · exact ⟨_, i, operation, .inl ⟨assign, rfl⟩⟩
  · exact ⟨_, i, operation, .inr ⟨flush, rfl⟩⟩

/-- An inexact stamp comes from an assign. -/
theorem HasStamp.assigned {records : List Metadata} {position b time : Nat}
    (stamped : HasStamp records position b (.atLeast time)) :
    ∃ last, LastOperation records position b last ∧ AssignedAt records b last := by
  obtain ⟨last, operation, ⟨assigned, _⟩ | ⟨_, impossible⟩⟩ := stamped
  · exact ⟨last, operation, assigned⟩
  · exact absurd impossible Stamp.noConfusion

/-- The byte was assigned, and flushed at most once since its last assign. -/
def FlushedOnce (past : List Metadata) (b : Nat) : Prop :=
  ∃ last, LastAssign past b last ∧ ∀ i j, last < i → last < j →
    CoveredAt past .flush b i → CoveredAt past .flush b j → i = j

/-- If the late range has not been flushed since it was assigned, an accepted query
keeps its promise: a crash anywhere in front of it that leaves the last value of a late
byte leaves the last value of every early byte.

An accepted query has found an exact stamp for the early byte, from a flush, that is
earlier than the stamp of the late byte, from its last assign. So the flush and the
assign stand in different sections. -/
theorem accepted_order_survives_crashes (t : Trace) (position : Nat) (cur : Ptr)
    (found : t.veriptr[position]? = some cur) (query : (t.memory cur).type = .order)
    (sized : 0 < (t.memory cur).size ∧ 0 < (t.memory cur).sizeLate)
    (included : ∀ m ∈ t.records.take position, m.type ≠ .exclude)
    (fresh : ∀ l ∈ (t.memory cur).bytesLate, NeverFlushed (t.records.take position) l)
    (accepted : ∀ line ∈ printedBy icl warn t cur, line.report.isOrderError = false) :
    ∀ e ∈ (t.memory cur).bytes, ∀ l ∈ (t.memory cur).bytesLate,
      PersistsBefore (memoryEvents (t.records.take position)) e l := by
  have bound : position ≤ t.records.length :=
    (List.getElem?_eq_some_iff.mp (t.record_found found)).1.le
  have summary := summarises_found t warn found
  have queried : (t.before warn position).Queried (t.memory cur) := by
    rw [ByteState.Queried, summary.excluded, excludedBefore_eq_empty included]
    exact ⟨sized, Set.disjoint_empty _, Set.disjoint_empty _⟩
  obtain ⟨stamped, ordered⟩ := accepted_stamps icl warn found query queried accepted
  intro e inEarly l inLate
  obtain ⟨early, foundEarly⟩ := Option.isSome_iff_exists.mp (stamped.1 e inEarly)
  obtain ⟨late, foundLate⟩ := Option.isSome_iff_exists.mp (stamped.2 l inLate)
  obtain ⟨assign, lastLate, only⟩ := (fresh l inLate).stamp bound included
  obtain rfl := (only late).mp ((summary.stamp l late).mp foundLate)
  obtain ⟨flush, lastEarly, ⟨_, rfl⟩ | ⟨flushed, rfl⟩⟩ := (summary.stamp e early).mp foundEarly
  · exact absurd (.inl ⟨e, inEarly, _, foundEarly⟩) ordered
  apply persistsBefore_of_sections bound included lastEarly flushed lastLate
  by_contra unordered
  exact ordered (.inr (.inl ⟨e, inEarly, l, inLate, _, _, foundEarly, foundLate,
    not_lt.mp unordered⟩))

/-- A flush and a fence between the two writes satisfy the query, and the order
survives. -/
theorem accepted_order_survives_crashes_ordered_ranges :
    printedBy (Segments.segments Nat Int) false orderedRanges 4 = [] ∧
    PersistsBefore (memoryEvents (orderedRanges.records.take 4)) 0 8 := by
  have silent : printedBy (Segments.segments Nat Int) false orderedRanges 4 = [] := by decide
  have fresh : ∀ l ∈ (orderedRanges.memory 4).bytesLate,
      NeverFlushed (orderedRanges.records.take 4) l := by
    intro l member
    refine ⟨3, ⟨by decide, ⟨_, rfl, rfl, member⟩, fun i after before => ?_⟩,
      fun i after covered => ?_⟩
    · exact absurd before (Nat.not_lt.mpr after)
    · exact absurd (lt_of_coveredAt covered) (Nat.not_lt.mpr after)
  exact ⟨silent, accepted_order_survives_crashes (Segments.segments Nat Int) false orderedRanges 4 4
    rfl rfl ⟨by decide, by decide⟩ (by decide) fresh (by simp [silent]) 0 ⟨by decide, by decide⟩ 8
    ⟨by decide, by decide⟩⟩

/-- If moreover the early range was flushed at most once since it was assigned, a
rejected query points to two bytes and a crash in front of it that leaves the last value
of the late byte without that of the early one.

The query was rejected for an early byte with an inexact stamp, whose last operation is
an assign, or for one with an exact stamp that is not earlier than that of a late byte.
In the second case its only flush stands in no section before the last assign of the
late byte. -/
theorem rejected_order_violated_by_crash (t : Trace) (position : Nat) (cur : Ptr)
    (found : t.veriptr[position]? = some cur) (query : (t.memory cur).type = .order)
    (included : ∀ m ∈ t.records.take position, m.type ≠ .exclude)
    (nonempty : (t.memory cur).bytesLate.Nonempty)
    (apart : Disjoint (t.memory cur).bytes (t.memory cur).bytesLate)
    (once : ∀ e ∈ (t.memory cur).bytes, FlushedOnce (t.records.take position) e)
    (fresh : ∀ l ∈ (t.memory cur).bytesLate, NeverFlushed (t.records.take position) l)
    (short : (sectionAt t.records position : Int) < intMax)
    (rejected : ∃ line ∈ printedBy icl warn t cur, line.report.isOrderError = true) :
    ∃ e ∈ (t.memory cur).bytes, ∃ l ∈ (t.memory cur).bytesLate,
      ¬ PersistsBefore (memoryEvents (t.records.take position)) e l := by
  have bound : position ≤ t.records.length :=
    (List.getElem?_eq_some_iff.mp (t.record_found found)).1.le
  have summary := summarises_found t warn found
  have reported : ∃ report ∈ (t.before warn position).orderReports (t.memory cur),
      report.isOrderError = true := by
    rw [printedBy_order icl warn t found query] at rejected
    simpa using rejected
  have queried : (t.before warn position).Queried (t.memory cur) := by
    by_contra unqueried
    obtain ⟨report, member, _⟩ := reported
    rw [ByteState.orderReports, if_neg unqueried] at member
    exact List.not_mem_nil member
  rcases (order_reports_iff _ _ queried).mp reported with unstamped | inexact | unordered | huge
  · -- all bytes of both ranges were assigned
    obtain ⟨b, inside, none⟩ := (ByteState.not_stamped_iff _ _).mp unstamped
    have assigned : ∃ last, LastAssign (t.records.take position) b last := by
      rcases inside with early | late
      · obtain ⟨last, assign, _⟩ := once b early
        exact ⟨last, assign⟩
      · obtain ⟨last, assign, _⟩ := fresh b late
        exact ⟨last, assign⟩
    obtain ⟨last, assign⟩ := assigned
    obtain ⟨stamp, stamped⟩ :=
      exists_hasStamp ((lastAssign_take_iff bound included b last).mp assign)
    rw [← summary.stamp] at stamped
    simp [stamped] at none
  · obtain ⟨e, inEarly, time, foundEarly⟩ := inexact
    obtain ⟨l, inLate⟩ := nonempty
    obtain ⟨last, operation, assigned⟩ := ((summary.stamp e _).mp foundEarly).assigned
    exact ⟨e, inEarly, l, inLate, not_persistsBefore_of_unflushed bound included
      (ne_of_mem_of_not_mem inEarly (Set.disjoint_right.mp apart inLate)) operation assigned⟩
  · obtain ⟨e, inEarly, l, inLate, early, late, foundEarly, foundLate, order⟩ := unordered
    have distinct : e ≠ l := ne_of_mem_of_not_mem inEarly (Set.disjoint_right.mp apart inLate)
    obtain ⟨assignLate, lastLate, only⟩ := (fresh l inLate).stamp bound included
    obtain rfl := (only late).mp ((summary.stamp l late).mp foundLate)
    refine ⟨e, inEarly, l, inLate, ?_⟩
    obtain ⟨last, operation, ⟨assigned, _⟩ | ⟨flushed, rfl⟩⟩ :=
      (summary.stamp e early).mp foundEarly
    · exact not_persistsBefore_of_unflushed bound included distinct operation assigned
    · obtain ⟨assign, isLast, single⟩ := once e inEarly
      have lastEarly := (lastAssign_take_iff bound included e assign).mp isLast
      have covered (i : Nat) := coveredAt_take_iff bound included .flush e i
      refine not_persistsBefore_of_sections bound included distinct lastEarly ?_ lastLate order
      intro i after below effective
      exact single i last after (lastAssign_lt_flush lastEarly operation flushed)
        ((covered i).mpr ⟨below, effective⟩) ((covered last).mpr ⟨operation.1, flushed.1⟩)
  · obtain ⟨e, _, early, foundEarly, huge⟩ := huge
    have reached := ((summary.stamp e early).mp foundEarly).time_le
    omega

/-- The late range is assigned in the section of the early flush. -/
def unorderedRanges : Trace := .ofRecords
  [{ type := .assign, addr := 0, size := 4 }, { type := .flush, addr := 0, size := 4 },
    { type := .assign, addr := 8, size := 4 }, { type := .fence },
    { type := .order, addr := 0, size := 4, addrLate := 8, sizeLate := 4 }]

/-- Without a fence between the early flush and the late write, a crash leaves the late
value alone. -/
theorem rejected_order_violated_by_crash_unordered_ranges :
    ∃ e ∈ (unorderedRanges.memory 4).bytes, ∃ l ∈ (unorderedRanges.memory 4).bytesLate,
      ¬ PersistsBefore (memoryEvents (unorderedRanges.records.take 4)) e l := by
  have types : ∀ i < 4, ∀ type,
      (unorderedRanges.records.take 4)[i]?.map Metadata.type = some type →
        (type = .assign → i = 0 ∨ i = 2) ∧ (type = .flush → i = 1) := by decide
  have apart : Disjoint (unorderedRanges.memory 4).bytes (unorderedRanges.memory 4).bytesLate :=
    Set.disjoint_left.mpr fun b ⟨_, below⟩ ⟨above, _⟩ => absurd (above.trans_lt below) (by decide)
  refine rejected_order_violated_by_crash (Segments.segments Nat Int) false unorderedRanges 4 4 rfl
    rfl (by decide) ⟨8, by decide, by decide⟩ apart ?_ ?_ (by decide)
    ⟨⟨4, 4, .orderError [] 0 0 4 8 12⟩, by decide, rfl⟩
  · intro e member
    refine ⟨0, ⟨by decide, ⟨_, rfl, rfl, member⟩, fun i after before covered => ?_⟩, ?_⟩
    · obtain rfl : i = 2 := by
        have either := (types i before _ covered.typed).1 rfl
        omega
      obtain ⟨m, found, _, above, _⟩ := covered
      obtain rfl := Option.some.inj found
      exact absurd (above.trans_lt member.2) (by decide)
    · intro i j _ _ first second
      rw [(types i (lt_of_coveredAt first) _ first.typed).2 rfl,
        (types j (lt_of_coveredAt second) _ second.typed).2 rfl]
  · intro l member
    refine ⟨2, ⟨by decide, ⟨_, rfl, rfl, member⟩, fun i after before covered => ?_⟩, ?_⟩
    · have either := (types i before _ covered.typed).1 rfl
      omega
    · intro i after covered
      have only := (types i (lt_of_coveredAt covered) _ covered.typed).2 rfl
      omega

end Order

end PMTest
