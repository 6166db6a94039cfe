import PMTest.ByteModel
import PMTest.FastVector
import PMTest.Segments

/-!
# Byte states read off the history of a trace

In front of each position the byte state is a summary of the records before it.
This module says what the summary is, position by position and byte by byte: the
excluded bytes are the fold of the exclusions, a byte is dirty when an effective
assign has not been followed by an effective fenced flush, its stamp comes from
the last such operation, and a byte is logged when some add inside a transaction
covered it.

The right-hand sides mention records and positions of the trace only.

The stamps count fences in an `int`, and nothing in the checker bounds the count. The
bound comes from the vector that holds the trace: each push that finds it full makes its
capacity ten times as large, and there is a last capacity that is an `int`. So a trace
that could be recorded at all has too few fences for the count to overflow, or to reach
the integer that an order query uses for an unknown time.
-/

namespace PMTest

open Intervals Lookahead

section Records

variable (records : List Metadata)

/-- The excluded bytes in front of a position. -/
def excludedBefore (position : Nat) : Set Nat :=
  (records.take position).foldl excludeStep ∅

/-- The record at the position has this type, covers the byte, and touches no
byte that is excluded there. -/
def EffectiveAt (type : MetadataType) (b position : Nat) : Prop :=
  ∃ m, records[position]? = some m ∧ m.type = type ∧ b ∈ m.bytes ∧
    Disjoint m.bytes (excludedBefore records position)

/-- The record at the position is a fence. -/
def FenceAt (position : Nat) : Prop := ∃ m, records[position]? = some m ∧ m.type = .fence

/-- Some fence occurs later in the trace. -/
def FencedAfter (position : Nat) : Prop := ∃ fence, position < fence ∧ FenceAt records fence

/-- An effective assign of the byte. -/
def AssignedAt (b position : Nat) : Prop := EffectiveAt records .assign b position

/-- An effective flush of the byte that some later fence completes. -/
def FlushedAt (b position : Nat) : Prop :=
  EffectiveAt records .flush b position ∧ FencedAfter records position

/-- The byte has been assigned in front of the position and not flushed since. -/
def Unflushed (position b : Nat) : Prop :=
  Pending (AssignedAt records b) (FlushedAt records b) position

/-- The number of fences in front of a position. -/
def fencesBefore (position : Nat) : Nat :=
  (records.take position).countP fun m => m.type = .fence

/-- The section of a position; the first section is number one. -/
def sectionAt (position : Nat) : Nat := 1 + fencesBefore records position

/-- The last effective assign or effective fenced flush of the byte in front of a
position. -/
def LastOperation (position b last : Nat) : Prop :=
  LastBefore (fun i => AssignedAt records b i ∨ FlushedAt records b i) position last

/-- The stamp of a byte in front of a position, taken from its last operation. -/
def HasStamp (position b : Nat) (stamp : Stamp) : Prop :=
  ∃ last, LastOperation records position b last ∧
    ((AssignedAt records b last ∧ stamp = .atLeast (sectionAt records last)) ∨
      (FlushedAt records b last ∧ stamp = .exactly (sectionAt records last)))

/-- Transaction begins minus transaction ends in front of a position. -/
def depthBefore (position : Nat) : Int := (records.take position).foldl depthStep 0

/-- The byte is covered by an add inside an open transaction. -/
def LoggedAt (b position : Nat) : Prop :=
  ∃ m, records[position]? = some m ∧ m.type = .transactionAdd ∧ b ∈ m.bytes ∧
    0 < depthBefore records position

/-- A transaction begin outside of every transaction. -/
def OutermostBegin (position : Nat) : Prop :=
  ∃ m, records[position]? = some m ∧ m.type = .transactionBegin ∧ depthBefore records position = 0

/-- An effective assign of some size inside a transaction. -/
def TransactionAssign (position : Nat) : Prop :=
  ∃ m, records[position]? = some m ∧ m.type = .assign ∧ 0 < m.size ∧
    Disjoint m.bytes (excludedBefore records position) ∧ 0 < depthBefore records position

/-- The assign at position `i` is still to be checked in front of a position: no
outermost begin has come since. -/
def StoredAt (position i : Nat) : Prop :=
  TransactionAssign records i ∧ ∀ j, i < j → j < position → ¬ OutermostBegin records j

/-- The outermost begin of the transaction that is open in front of a position. -/
structure Opens (first position : Nat) : Prop where
  before : first < position
  begins : OutermostBegin records first
  inside : ∀ j, first < j → j ≤ position → 0 < depthBefore records j

end Records

section Summary

/-- A byte state holds exactly what the records in front of a position say. -/
structure Summarises (records : List Metadata) (position : Nat) (v : ByteState) : Prop where
  excluded : v.excluded = excludedBefore records position
  time : v.time = sectionAt records position
  depth : v.depth = depthBefore records position
  dirty : ∀ b, b ∈ v.dirty ↔ Unflushed records position b
  added : ∀ b, b ∈ v.added ↔ ∃ i < position, LoggedAt records b i
  stamp : ∀ b stamp, v.stamp b = some stamp ↔ HasStamp records position b stamp

variable {records : List Metadata} {position : Nat}

/-- One record more has the effect of this record. -/
theorem excludedBefore_succ {m : Metadata} (found : records[position]? = some m) :
    excludedBefore records (position + 1) = excludeStep (excludedBefore records position) m := by
  simp [excludedBefore, List.take_add_one, found]

/-- Without exclude records nothing is ever excluded. -/
theorem excludedBefore_eq_empty (included : ∀ m ∈ records.take position, m.type ≠ .exclude) :
    excludedBefore records position = ∅ := by
  unfold excludedBefore
  generalize records.take position = past at included
  induction past with
  | nil => rfl
  | cons m rest ih =>
    have first : excludeStep ∅ m = ∅ := by
      unfold excludeStep
      split
      · rename_i exclude
        exact absurd exclude (included m List.mem_cons_self)
      · exact Set.empty_sdiff _
      · rfl
    rw [List.foldl_cons, first]
    exact ih fun n member => included n (List.mem_cons_of_mem m member)

/-- Later positions lie in later or equal sections. -/
theorem sectionAt_mono (records : List Metadata) {first last : Nat} (order : first ≤ last) :
    sectionAt records first ≤ sectionAt records last :=
  Nat.add_le_add_left ((List.take_prefix_take_left order).sublist.countP_le) 1

/-- A fence begins a section. -/
theorem sectionAt_succ {m : Metadata} (found : records[position]? = some m) :
    sectionAt records (position + 1) =
      if m.type = .fence then sectionAt records position + 1 else sectionAt records position := by
  simp only [sectionAt, fencesBefore, List.take_add_one, found, Option.toList_some,
    List.countP_append, List.countP_singleton, decide_eq_true_eq]
  split_ifs <;> rfl

/-- One record more has the effect of this record. -/
theorem depthBefore_succ {m : Metadata} (found : records[position]? = some m) :
    depthBefore records (position + 1) = depthStep (depthBefore records position) m := by
  simp [depthBefore, List.take_add_one, found]

/-- An operation at a position gives the byte its stamp; any other record leaves
the stamp to the positions before it. -/
theorem hasStamp_succ (records : List Metadata) (position b : Nat) (stamp : Stamp) :
    HasStamp records (position + 1) b stamp ↔
      (AssignedAt records b position ∧ stamp = .atLeast (sectionAt records position)) ∨
      (FlushedAt records b position ∧ stamp = .exactly (sectionAt records position)) ∨
      (¬ (AssignedAt records b position ∨ FlushedAt records b position) ∧
        HasStamp records position b stamp) := by
  unfold HasStamp LastOperation
  simp only [lastBefore_succ]
  by_cases here : AssignedAt records b position ∨ FlushedAt records b position
  · simp [here]
  · have neither := not_or.mp here
    simp [neither]

/-- The section of a stamp has been reached. -/
theorem HasStamp.time_le {records : List Metadata} {position b : Nat} {stamp : Stamp}
    (stamped : HasStamp records position b stamp) : stamp.time ≤ sectionAt records position := by
  obtain ⟨last, ⟨below, _⟩, ⟨_, rfl⟩ | ⟨_, rfl⟩⟩ := stamped
  · exact sectionAt_mono records below.le
  · exact sectionAt_mono records below.le

/-- A position holds one record, so it does not both assign and flush. -/
theorem not_flushedAt_of_assignedAt {records : List Metadata} {b position : Nat}
    (assigned : AssignedAt records b position) : ¬ FlushedAt records b position := by
  rintro ⟨⟨m, found, flush, _⟩, _⟩
  obtain ⟨other, same, assign, _⟩ := assigned
  obtain rfl : m = other := Option.some.inj (found.symm.trans same)
  exact absurd (assign.symm.trans flush) (by decide)

/-- In front of all records there is nothing to summarise. -/
theorem summarises_initial (records : List Metadata) : Summarises records 0 ByteState.initial where
  excluded := rfl
  time := rfl
  depth := rfl
  dirty b := iff_of_false (Set.notMem_empty b) (not_pending_zero _ _)
  added b := by simp [ByteState.initial]
  stamp b stamp := by simp [ByteState.initial, HasStamp, LastOperation, not_lastBefore_zero]

/-- A record touches a byte exactly when its position holds an effective
operation on that byte. -/
theorem Summarises.touches_iff {v : ByteState} (summary : Summarises records position v)
    {m : Metadata} (found : records[position]? = some m) (type : MetadataType) (b : Nat) :
    v.Touches type m b ↔ EffectiveAt records type b position := by
  rw [EffectiveAt, ByteState.Touches, summary.excluded]
  refine ⟨fun touches => ⟨m, found, touches⟩, ?_⟩
  rintro ⟨other, same, touches⟩
  obtain rfl : m = other := Option.some.inj (found.symm.trans same)
  exact touches

/-- Crossing a record that is not a skipped flush keeps the summary. The bytes that the
record touches are those with an effective operation at this position, and for each
component the history of one record more follows the same equation as the state. -/
theorem Summarises.next {memory : Ptr → Metadata} {cur : Ptr} {v : ByteState}
    (summary : Summarises records position v) (found : records[position]? = some (memory cur))
    (fenced : (memory cur).type = .flush → FencedAfter records position) :
    Summarises records (position + 1) (v.next memory cur) := by
  have assigned (b : Nat) : v.Touches .assign (memory cur) b ↔ AssignedAt records b position :=
    summary.touches_iff found .assign b
  have flushed (b : Nat) : v.Touches .flush (memory cur) b ↔ FlushedAt records b position :=
    ⟨fun touches => ⟨(summary.touches_iff found .flush b).mp touches, fenced touches.1⟩,
      fun flushed => (summary.touches_iff found .flush b).mpr flushed.1⟩
  refine ⟨?_, ?_, ?_, ?_, ?_, ?_⟩
  · rw [excludedBefore_succ found, ← summary.excluded]
    rfl
  · rw [sectionAt_succ found, ← summary.time]
    rfl
  · rw [depthBefore_succ found, ← summary.depth]
    rfl
  · intro b
    rw [Unflushed, pending_succ, ← assigned, ← flushed, ← Unflushed, ← summary.dirty]
    rfl
  · intro b
    rw [Nat.exists_lt_succ_right, ← summary.added]
    refine or_congr_right ⟨fun logged => ⟨memory cur, found, logged.1, logged.2.1, ?_⟩, ?_⟩
    · exact summary.depth ▸ logged.2.2
    · rintro ⟨m, same, type, inside, opened⟩
      obtain rfl : memory cur = m := Option.some.inj (found.symm.trans same)
      exact ⟨type, inside, summary.depth ▸ opened⟩
  · intro b stamp
    rw [hasStamp_succ, ← summary.stamp, ← summary.time, ← assigned, ← flushed]
    simp only [ByteState.next]
    split_ifs with assign flush
    · have unflushed : ¬ v.Touches .flush (memory cur) b := fun flush =>
        not_flushedAt_of_assignedAt ((assigned b).mp assign) ((flushed b).mp flush)
      simp [assign, unflushed, eq_comm]
    · simp [assign, flush, eq_comm]
    · simp [assign, flush]

/-- Only assigns, and flushes that some fence follows, are operations on a byte. -/
theorem not_operation {m : Metadata} (found : records[position]? = some m)
    (unassigned : m.type ≠ .assign) (unfenced : m.type = .flush → ¬ FencedAfter records position)
    (b : Nat) : ¬ (AssignedAt records b position ∨ FlushedAt records b position) := by
  rintro (⟨n, same, assign, _⟩ | ⟨⟨n, same, flush, _⟩, fenced⟩)
  · obtain rfl : m = n := Option.some.inj (found.symm.trans same)
    exact unassigned assign
  · obtain rfl : m = n := Option.some.inj (found.symm.trans same)
    exact unfenced flush fenced

/-- A flush that no fence follows keeps the summary: it is skipped, and it counts
neither as an operation on a byte nor as any other record. -/
theorem Summarises.skip {m : Metadata} {v : ByteState}
    (summary : Summarises records position v) (found : records[position]? = some m)
    (flush : m.type = .flush) (unfenced : ¬ FencedAfter records position) :
    Summarises records (position + 1) v := by
  have untouched (b : Nat) := not_or.mp
    (not_operation found (by rw [flush]; decide) (fun _ => unfenced) b)
  have unlogged (b : Nat) : ¬ LoggedAt records b position := by
    rintro ⟨n, same, typed, _⟩
    obtain rfl : m = n := Option.some.inj (found.symm.trans same)
    exact absurd (typed.symm.trans flush) (by decide)
  refine ⟨?_, ?_, ?_, ?_, ?_, ?_⟩
  · rw [excludedBefore_succ found, summary.excluded, excludeStep, flush]
  · rw [sectionAt_succ found, summary.time, flush, if_neg (by decide)]
  · rw [depthBefore_succ found, summary.depth, depthStep, flush]
  · intro b
    simp only [Unflushed, pending_succ, untouched, not_false_eq_true, and_true, false_or]
    exact summary.dirty b
  · intro b
    simp only [Nat.exists_lt_succ_right, unlogged, or_false]
    exact summary.added b
  · intro b stamp
    simp only [hasStamp_succ, untouched, false_and, or_self, not_false_eq_true, true_and, false_or]
    exact summary.stamp b stamp

end Summary

section Positions

variable (t : Trace)

/-- Positions of records are positions of addresses. -/
theorem Trace.records_getElem? (position : Nat) :
    t.records[position]? = t.veriptr[position]?.map t.memory :=
  List.getElem?_map

/-- The record at the position of an address. -/
theorem Trace.record_found {position : Nat} {cur : Ptr} (found : t.veriptr[position]? = some cur) :
    t.records[position]? = some (t.memory cur) := by
  rw [t.records_getElem?, found, Option.map_some]

/-- The scan of the later records finds a fence exactly when one occurs. -/
theorem hasFence_iff (position : Nat) :
    hasFence t.memory (t.veriptr.drop (position + 1)) = true ↔ FencedAfter t.records position := by
  simp only [hasFence, List.any_eq_true, decide_eq_true_eq, FencedAfter]
  constructor
  · rintro ⟨p, member, fence⟩
    obtain ⟨offset, located⟩ := List.mem_iff_getElem?.mp member
    rw [List.getElem?_drop] at located
    exact ⟨position + 1 + offset, by omega, t.memory p, t.record_found located, fence⟩
  · rintro ⟨later, after, m, found, fence⟩
    rw [t.records_getElem?, Option.map_eq_some_iff] at found
    obtain ⟨p, located, rfl⟩ := found
    refine ⟨p, List.mem_iff_getElem?.mpr ⟨later - (position + 1), ?_⟩, fence⟩
    rw [List.getElem?_drop, ← located]
    congr 1
    omega

/-- A flush is skipped exactly when no fence follows it. -/
theorem skipped_iff (position : Nat) (cur : Ptr) :
    t.Skipped position cur ↔
      (t.memory cur).type = .flush ∧ ¬ FencedAfter t.records position := by
  rw [Trace.Skipped, ← hasFence_iff, Bool.not_eq_true]

variable {t} in
/-- A skipped record is no operation on any byte. -/
theorem not_operation_of_skipped {position : Nat} {cur : Ptr}
    (found : t.veriptr[position]? = some cur) (skipped : t.Skipped position cur) (b : Nat) :
    ¬ (AssignedAt t.records b position ∨ FlushedAt t.records b position) :=
  not_operation (t.record_found found) (by rw [skipped.1]; decide)
    (fun _ => ((skipped_iff t position cur).mp skipped).2) b

variable {t} in
/-- Crossing the record of a position keeps the summary. -/
theorem Summarises.step (warn : Bool) {position : Nat} {cur : Ptr} {v : ByteState}
    (found : t.veriptr[position]? = some cur) (summary : Summarises t.records position v) :
    Summarises t.records (position + 1)
      (ByteState.machine warn t.memory (t.veriptr.drop (position + 1)) cur v).1 := by
  have located := t.record_found found
  rw [machine_eq]
  split_ifs with skipped
  · exact summary.skip located skipped.1 ((skipped_iff t position cur).mp skipped).2
  · apply summary.next located
    intro flush
    by_contra unfenced
    exact skipped ((skipped_iff t position cur).mpr ⟨flush, unfenced⟩)

/-- In front of every position the byte state is the summary of the records
before it. -/
theorem summarises_before (warn : Bool) (position : Nat) (bound : position ≤ t.veriptr.length) :
    Summarises t.records position (t.before warn position) :=
  stateAt_induction (ByteState.machine warn t.memory) t.veriptr ByteState.initial
    (Summarises t.records) (summarises_initial t.records)
    (fun _ _ _ found summary => summary.step warn found) position bound

/-- The summary in front of a record of the trace. -/
theorem summarises_found (warn : Bool) {position : Nat} {cur : Ptr}
    (found : t.veriptr[position]? = some cur) :
    Summarises t.records position (t.before warn position) :=
  summarises_before t warn position (List.getElem?_eq_some_iff.mp found).1.le

open Classical in
/-- The assigns still to be checked in front of a position, in trace order. -/
noncomputable def storedBefore (position : Nat) : List Ptr :=
  ((List.range position).filter fun i => StoredAt t.records position i).filterMap (t.veriptr[·]?)

/-- The list holds the addresses at the positions of the assigns that are still to be
checked. -/
theorem mem_storedBefore (position : Nat) (p : Ptr) :
    p ∈ storedBefore t position ↔
      ∃ i < position, StoredAt t.records position i ∧ t.veriptr[i]? = some p := by
  simp [storedBefore, List.mem_filterMap, and_assoc]

/-- An outermost begin empties the list. -/
theorem storedBefore_begin {position : Nat} (outermost : OutermostBegin t.records position) :
    storedBefore t (position + 1) = [] := by
  apply List.eq_nil_iff_forall_not_mem.mpr
  intro p member
  obtain ⟨i, below, ⟨assign, since⟩, _⟩ := (mem_storedBefore t _ p).mp member
  rcases Nat.lt_succ_iff_lt_or_eq.mp below with earlier | rfl
  · exact since position earlier (Nat.lt_succ_self position) outermost
  · obtain ⟨m, found, begins, _⟩ := outermost
    obtain ⟨n, same, assigns, _⟩ := assign
    obtain rfl : m = n := Option.some.inj (found.symm.trans same)
    exact absurd (begins.symm.trans assigns) (by decide)

open Classical in
/-- A record that is no outermost begin leaves the stored addresses alone, up to its own
one. Whether an earlier assign is stored changes at an outermost begin only. -/
theorem storedBefore_succ {position : Nat} {cur : Ptr} (found : t.veriptr[position]? = some cur)
    (inner : ¬ OutermostBegin t.records position) :
    storedBefore t (position + 1) =
      if TransactionAssign t.records position then storedBefore t position ++ [cur]
      else storedBefore t position := by
  have earlier : (List.range position).filter (fun i => StoredAt t.records (position + 1) i) =
      (List.range position).filter (fun i => StoredAt t.records position i) := by
    refine List.filter_congr fun i member => decide_eq_decide.mpr (and_congr_right fun _ => ?_)
    constructor
    · exact fun since j after before => since j after (by omega)
    · intro since j after before
      rcases Nat.lt_succ_iff_lt_or_eq.mp before with below | rfl
      · exact since j after below
      · exact inner
  have last : StoredAt t.records (position + 1) position ↔ TransactionAssign t.records position :=
    and_iff_left fun j after before => by omega
  simp only [storedBefore, List.range_succ, List.filter_append, List.filterMap_append, earlier,
    List.filter_singleton, last]
  split_ifs with assign
  · simp [assign, found]
  · simp [assign]

/-- Assigns and transaction begins alone change the stored addresses. -/
theorem next_stored_other (memory : Ptr → Metadata) (cur : Ptr) (v : ByteState)
    (unassigned : (memory cur).type ≠ .assign) (inner : (memory cur).type ≠ .transactionBegin) :
    (v.next memory cur).stored = v.stored := by
  unfold ByteState.next
  cases type : (memory cur).type <;> simp_all

variable {t} in
open Classical in
/-- What a record does to the stored addresses, in terms of the history. The conditions
on the depth and on the excluded bytes are read off the summary. -/
theorem Summarises.next_stored {position : Nat} {cur : Ptr} {v : ByteState}
    (found : t.veriptr[position]? = some cur) (summary : Summarises t.records position v) :
    (v.next t.memory cur).stored =
      if OutermostBegin t.records position then []
      else if TransactionAssign t.records position then v.stored ++ [cur] else v.stored := by
  have located := t.record_found found
  have begins : OutermostBegin t.records position ↔
      (t.memory cur).type = .transactionBegin ∧ v.depth = 0 := by
    rw [summary.depth]
    constructor
    · rintro ⟨m, same, begins, outside⟩
      obtain rfl : t.memory cur = m := Option.some.inj (located.symm.trans same)
      exact ⟨begins, outside⟩
    · rintro ⟨begins, outside⟩
      exact ⟨_, located, begins, outside⟩
  have assigns : TransactionAssign t.records position ↔
      (t.memory cur).type = .assign ∧ v.Effective (t.memory cur) ∧ 0 < v.depth := by
    rw [ByteState.Effective, summary.excluded, summary.depth]
    constructor
    · rintro ⟨m, same, assign, sized, included, inside⟩
      obtain rfl : t.memory cur = m := Option.some.inj (located.symm.trans same)
      exact ⟨assign, ⟨sized, included⟩, inside⟩
    · rintro ⟨assign, ⟨sized, included⟩, inside⟩
      exact ⟨_, located, assign, sized, included, inside⟩
  simp only [begins, assigns, ByteState.next]
  cases type : (t.memory cur).type <;> simp

/-- The stored addresses in front of every position are those of the history. The
induction is on the position; a skipped flush neither begins a transaction nor assigns. -/
theorem stored_before (warn : Bool) (position : Nat) (bound : position ≤ t.veriptr.length) :
    (t.before warn position).stored = storedBefore t position := by
  classical
  induction position with
  | zero => rfl
  | succ position ih =>
    have found : t.veriptr[position]? = some t.veriptr[position] := List.getElem?_eq_getElem bound
    have summary := summarises_found t warn found
    have step : (t.before warn (position + 1)).stored =
        ((t.before warn position).next t.memory t.veriptr[position]).stored := by
      rw [before_succ warn t found]
      split_ifs with skipped
      · exact (next_stored_other _ _ _ (by simp [skipped.1]) (by simp [skipped.1])).symm
      · rfl
    rw [step, summary.next_stored found, ih (Nat.le_of_succ_le bound)]
    split_ifs with outermost assign
    · exact (storedBefore_begin t outermost).symm
    · rw [storedBefore_succ t found outermost, if_pos assign]
    · rw [storedBefore_succ t found outermost, if_neg assign]

end Positions

section Range

variable (icl : Icl) (warn : Bool) (t : Trace)

/-- There are no more sections than records, and one more. -/
theorem sectionAt_le_length (records : List Metadata) (position : Nat) :
    sectionAt records position ≤ 1 + records.length := by
  have counted : fencesBefore records position ≤ (records.take position).length :=
    List.countP_le_length
  have taken := List.length_take_le' position records
  rw [sectionAt]
  omega

/-- A stored stamp is the signed section of the last operation on the byte. -/
theorem HasStamp.encode_spec {records : List Metadata} {position b : Nat} {stamp : Stamp}
    (stamped : HasStamp records position b stamp) :
    stamp.encode ≠ 0 ∧ |stamp.encode| ≤ sectionAt records position ∧
      ∃ last, LastOperation records position b last ∧
        (stamp.encode < 0 ↔ AssignedAt records b last) := by
  have reached := stamped.time_le
  obtain ⟨last, operation, ⟨assigned, rfl⟩ | ⟨flushed, rfl⟩⟩ := stamped
  · have positive : 0 < sectionAt records last := Nat.lt_add_right _ Nat.one_pos
    simp only [Stamp.encode, Stamp.time] at reached ⊢
    refine ⟨by omega, by rw [abs_neg, abs_of_nonneg (by omega)]; omega, last, operation, ?_⟩
    exact iff_of_true (by omega) assigned
  · have positive : 0 < sectionAt records last := Nat.lt_add_right _ Nat.one_pos
    simp only [Stamp.encode, Stamp.time] at reached ⊢
    refine ⟨by omega, by rw [abs_of_nonneg (by omega)]; omega, last, operation, ?_⟩
    exact iff_of_false (by omega) fun assigned => not_flushedAt_of_assignedAt assigned flushed

/-- For every trace that can be pushed into a vector without an overflow of its
capacity, and in front of every record, the timestamp is positive and far below the
largest integer. Every value of the order map is nonzero, bounded by the timestamp,
different from the largest integer, and negative exactly if the last operation that
wrote it was an assign.

The timestamp is the section of the position, which exceeds the number of records by one
at most, and the capacity of a vector bounds these. The values are encoded stamps of
operations in earlier sections. -/
theorem timestamps_in_range {vector : FastVector Ptr}
    (filled : Transitions.run FastVector.pushBack FastVector.new t.veriptr = some vector)
    (position : Nat) (s : VeriState icl)
    (visited : VisitedAt icl warn t.memory t.veriptr position s) :
    1 ≤ s.timestamp ∧ s.timestamp ≤ 2000000001 ∧ s.timestamp + 1 ≤ intMax ∧
    ∀ b value, icl.lookup s.orderInfo b = some value →
      value ≠ 0 ∧ |value| ≤ s.timestamp ∧ value ≠ intMax ∧
      ∃ last, LastOperation t.records position b last ∧
        (value < 0 ↔ AssignedAt t.records b last) := by
  obtain ⟨bound, rfl⟩ := visited.eq_variablesAt
  have refines := stateAt_refines icl warn t.memory t.veriptr position
  have summary := summarises_before t warn position bound
  have recorded := FastVector.filled_length_le filled
  have sections := sectionAt_le_length t.records position
  have length : t.records.length = t.veriptr.length := List.length_map t.memory
  have timestamp : (variablesAt icl warn t position).timestamp = sectionAt t.records position := by
    rw [refines.time, ← summary.time]
    rfl
  have first : 1 ≤ sectionAt t.records position := Nat.le_add_right 1 _
  rw [timestamp]
  refine ⟨by omega, by omega, by simp only [intMax]; omega, ?_⟩
  intro b value stored
  rw [refines.stamp, Option.map_eq_some_iff] at stored
  obtain ⟨stamp, found, rfl⟩ := stored
  obtain ⟨nonzero, reached, operation⟩ := ((summary.stamp b stamp).mp found).encode_spec
  refine ⟨nonzero, reached, fun largest => ?_, operation⟩
  rw [largest, abs_of_nonneg (by simp [intMax])] at reached
  simp only [intMax] at reached
  omega

/-- One range is written and flushed, another one is written behind the fence. -/
def flushedAndWritten : Trace := .ofRecords
  [{ type := .assign, addr := 0, size := 4 }, { type := .flush, addr := 0, size := 4 },
    { type := .fence }, { type := .assign, addr := 8, size := 4 }]

/-- The second write is stamped in the second section, with a negative sign. -/
theorem timestamps_in_range_flushed_and_written :
    ∃ s, VisitedAt (Segments.segments Nat Int) false flushedAndWritten.memory
        flushedAndWritten.veriptr 4 s ∧
      (Segments.segments Nat Int).lookup s.orderInfo 8 = some (-2) ∧ s.timestamp ≤ 2000000001 ∧
      ∃ last, LastOperation flushedAndWritten.records 4 8 last ∧
        AssignedAt flushedAndWritten.records 8 last := by
  obtain ⟨_, filled⟩ := FastVector.exists_filled flushedAndWritten.veriptr (by decide)
  have visited := (visitedAt_iff (Segments.segments Nat Int) false flushedAndWritten 4 _).mpr
    ⟨by decide, rfl⟩
  obtain ⟨_, small, _, stored⟩ := timestamps_in_range (Segments.segments Nat Int) false
    flushedAndWritten filled 4 _ visited
  have written : (Segments.segments Nat Int).lookup
      (variablesAt (Segments.segments Nat Int) false flushedAndWritten 4).orderInfo 8 =
        some (-2) := by decide
  obtain ⟨_, _, _, last, operation, sign⟩ := stored 8 (-2) written
  exact ⟨_, visited, written, small, last, operation, sign.mp (by decide)⟩

end Range

end PMTest
