import PMTest.Placement

/-!
# The pass over the records alone

What a verification prints depends on the records of its trace and not on where they
are stored. Here the pass reads the records themselves: the state in front of a record
holds the byte state and, instead of addresses, the assigns that the end of the
transaction will check.

A question about two traces, one of which has been made from the other, is then a
question about two lists of records. A relation between the states of the two passes
that every record keeps answers it.
-/

namespace PMTest

open Lookahead

/-- Some record of the list is a fence. -/
def fenceAmong (records : List Metadata) : Bool := records.any fun m => m.type = .fence

/-- The byte state in front of a record, and the assigns to check when the
transaction ends. The byte state's own list of addresses is not used. -/
structure RecordState where
  bytes : ByteState
  pending : List Metadata

namespace ByteState

/-- The byte state behind a record that is not skipped. -/
noncomputable def after (v : ByteState) (m : Metadata) : ByteState :=
  { v.next (fun _ => m) 0 with stored := [] }

section After

variable (v : ByteState) (m : Metadata)

@[simp] theorem after_excluded : (v.after m).excluded = excludeStep v.excluded m := rfl

@[simp] theorem after_time :
    (v.after m).time = if m.type = .fence then v.time + 1 else v.time := rfl

@[simp] theorem after_depth : (v.after m).depth = depthStep v.depth m := rfl

@[simp] theorem after_stored : (v.after m).stored = [] := rfl

@[simp] theorem mem_after_dirty (b : Nat) :
    b ∈ (v.after m).dirty ↔
      v.Touches .assign m b ∨ (b ∈ v.dirty ∧ ¬ v.Touches .flush m b) := Iff.rfl

@[simp] theorem mem_after_added (b : Nat) :
    b ∈ (v.after m).added ↔
      b ∈ v.added ∨ (m.type = .transactionAdd ∧ b ∈ m.bytes ∧ 0 < v.depth) := Iff.rfl

open Classical in
/-- An assign stamps its bytes with a lower bound, a flush with the exact section, and
all other stamps stay. -/
theorem after_stamp (b : Nat) :
    (v.after m).stamp b =
      if v.Touches .assign m b then some (.atLeast v.time)
      else if v.Touches .flush m b then some (.exactly v.time)
      else v.stamp b := rfl

end After

/-- One record's effect on the assigns to check. -/
noncomputable def pendingStep (v : ByteState) (m : Metadata) (pending : List Metadata) :
    List Metadata :=
  open Classical in
  match m.type with
  | .assign => if v.Effective m ∧ 0 < v.depth then pending ++ [m] else pending
  | .transactionBegin => if v.depth = 0 then [] else pending
  | _ => pending

/-- A record does to the stored addresses what `pendingStep` does to the records there.
The two definitions follow the types in the same way, so they are compared type by type. -/
theorem map_storeStep (v : ByteState) (memory : Ptr → Metadata) (cur : Ptr) (stored : List Ptr) :
    (v.storeStep (memory cur) cur stored).map memory =
      v.pendingStep (memory cur) (stored.map memory) := by
  unfold storeStep pendingStep
  cases (memory cur).type with
  | assign =>
    simp only
    split_ifs
    · rw [List.map_append, List.map_singleton]
    · rfl
  | transactionBegin =>
    simp only
    split_ifs
    · rfl
    · rfl
  | _ => rfl

end ByteState

namespace RecordState

/-- The pass begins without any knowledge of bytes and without waiting assigns. -/
noncomputable def initial : RecordState := ⟨.initial, []⟩

/-- The state behind a record that is not skipped. -/
noncomputable def next (k : RecordState) (m : Metadata) : RecordState :=
  ⟨k.bytes.after m, k.bytes.pendingStep m k.pending⟩

/-- The reports for a record that is not skipped. -/
noncomputable def reports (warn : Bool) (k : RecordState) (m : Metadata) : List Report :=
  k.bytes.reports warn m k.pending

/-- The pass over records: a flush that no fence follows is skipped. -/
noncomputable def machine (warn : Bool) : Machine Metadata RecordState Report := fun later m k =>
  if m.type = .flush ∧ fenceAmong later = false then (k, [])
  else (k.next m, k.reports warn m)

/-- A record that is no flush is never skipped. -/
theorem machine_of_ne_flush (warn : Bool) (later : List Metadata) {m : Metadata} (k : RecordState)
    (other : m.type ≠ .flush) : machine warn later m k = (k.next m, k.reports warn m) :=
  if_neg fun skipped => other skipped.1

/-- Two passes skip a flush alike if both or neither have a fence ahead. -/
theorem machine_congr (warn : Bool) {later later' : List Metadata} (m : Metadata) (k : RecordState)
    (ahead : m.type = .flush → fenceAmong later = fenceAmong later') :
    machine warn later m k = machine warn later' m k := by
  by_cases flush : m.type = .flush
  · rw [machine, machine, ahead flush]
  · rw [machine_of_ne_flush warn later k flush, machine_of_ne_flush warn later' k flush]

end RecordState

/-- A fence ahead is found among the records or through their addresses. -/
theorem fenceAmong_map (memory : Ptr → Metadata) (later : List Ptr) :
    fenceAmong (later.map memory) = hasFence memory later := by
  rw [fenceAmong, hasFence, List.any_map]
  rfl

section Verdict

variable (icl : Icl) (warn : Bool)

/-- What a verification prints: its reports, and whether the message about unmatched
transactions. -/
structure Verdict where
  reports : List Report
  unmatched : Bool
  deriving DecidableEq, Repr

/-- What `veriProc` prints for a trace. -/
def Trace.verdict (t : Trace) : Verdict where
  reports := t.reports icl warn
  unmatched := (veriProc icl warn t.memory t.veriptr).transactionEndError

/-- What `veriProc` prints for records that were allocated one after the other. -/
def verdict (records : List Metadata) : Verdict := (Trace.ofRecords records).verdict icl warn

/-- The trace that was allocated for some records has these records. -/
theorem records_ofRecords (records : List Metadata) :
    (Trace.ofRecords records).records = records := by
  apply List.ext_getElem?
  intro k
  simp only [Trace.records, Trace.ofRecords, List.getElem?_map]
  by_cases inside : k < records.length
  · simp [inside]
  · simp [Nat.not_lt.mp inside]

/-- The byte states of a trace and the states of the pass over its records hold the
same, and the stored addresses point to the pending assigns. -/
def ReadsAs (memory : Ptr → Metadata) (v : ByteState) (k : RecordState) : Prop :=
  k = ⟨{ v with stored := [] }, v.stored.map memory⟩

/-- One record keeps this and prints the same. A flush is skipped on both sides or on
none, because the records ahead are those at the addresses ahead. -/
theorem ReadsAs.step {memory : Ptr → Metadata} {v : ByteState} {k : RecordState}
    (reads : ReadsAs memory v k) (later : List Ptr) (cur : Ptr) :
    ReadsAs memory (ByteState.machine warn memory later cur v).1
        (RecordState.machine warn (later.map memory) (memory cur) k).1 ∧
      (ByteState.machine warn memory later cur v).2.map Line.report =
        (RecordState.machine warn (later.map memory) (memory cur) k).2 := by
  obtain rfl := reads
  unfold ByteState.machine RecordState.machine
  rw [fenceAmong_map]
  split_ifs with skipped
  · exact ⟨rfl, rfl⟩
  · refine ⟨?_, v.map_report_lines warn memory cur⟩
    have stored : (v.next memory cur).stored = v.storeStep (memory cur) cur v.stored := rfl
    rw [ReadsAs, stored, ByteState.map_storeStep]
    rfl

/-- The pass over the records of a trace prints what the pass over its addresses prints.
The passes are run side by side over addresses and records that belong together. -/
theorem pass_reads_as (t : Trace) :
    ReadsAs t.memory (run (ByteState.machine warn t.memory) [] t.veriptr .initial)
        (run (RecordState.machine warn) [] t.records .initial) ∧
      (output (ByteState.machine warn t.memory) [] t.veriptr .initial).map Line.report =
        output (RecordState.machine warn) [] t.records .initial := by
  have pairs : List.Forall₂ (fun p m => t.memory p = m) t.veriptr t.records := by
    rw [Trace.records, List.forall₂_map_right_iff, List.forall₂_same]
    exact fun p _ => rfl
  have concatenates : Concatenates fun (lines : List Line) reports =>
      lines.map Line.report = reports :=
    ⟨rfl, fun first second => by rw [List.map_append, first, second]⟩
  apply simulate_pass (ByteState.machine warn t.memory) (RecordState.machine warn)
    (fun p m => t.memory p = m) (fun _ => ReadsAs t.memory) concatenates [] [] _ pairs _ _ rfl
  rintro p rest m records v k rfl pairs reads
  have later : records = rest.map t.memory := by
    rw [← List.forall₂_eq_eq_eq, List.forall₂_map_right_iff]
    exact (pairs.imp fun _ _ => Eq.symm).flip
  rw [later, List.append_nil, List.append_nil]
  exact reads.step warn rest p

/-- What `veriProc` prints for a trace is a function of its records. -/
theorem Trace.verdict_eq (t : Trace) :
    t.verdict icl warn =
      ⟨output (RecordState.machine warn) [] t.records .initial,
        decide (0 < (run (RecordState.machine warn) [] t.records .initial).bytes.depth)⟩ := by
  obtain ⟨final, printed⟩ := pass_reads_as warn t
  rw [Trace.verdict, t.reports_eq, transactionEndError_eq_run, printed, final]

/-- The verdict of records is computed by a pass over them, in which no address occurs. -/
theorem verdict_eq (records : List Metadata) :
    verdict icl warn records =
      ⟨output (RecordState.machine warn) [] records .initial,
        decide (0 < (run (RecordState.machine warn) [] records .initial).bytes.depth)⟩ := by
  rw [verdict, Trace.verdict_eq, records_ofRecords]

/-- The addresses of the records do not matter. -/
theorem verdict_records (t : Trace) : verdict icl warn t.records = t.verdict icl warn := by
  rw [verdict_eq, Trace.verdict_eq]

end Verdict

end PMTest
