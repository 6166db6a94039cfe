import PMTest.ByteModel

/-!
# Records and where they are stored

A trace is a list of addresses, and the checker stores addresses for the end of a
transaction. What it prints says nothing about them. Two traces with the same
records, stored in different places, give the same reports in the same order.

The byte states of the two runs differ in the stored addresses only, and what a
record does to the other fields does not depend on these. The same is true of two
runs that store the same addresses in a different order.
-/

namespace PMTest

open Lookahead

namespace ByteState

/-- One record's effect on a list of stored addresses. -/
noncomputable def storeStep (v : ByteState) (m : Metadata) (cur : Ptr) (stored : List Ptr) :
    List Ptr :=
  open Classical in
  match m.type with
  | .assign => if v.Effective m ∧ 0 < v.depth then stored ++ [cur] else stored
  | .transactionBegin => if v.depth = 0 then [] else stored
  | _ => stored

/-- A record acts on the stored addresses by itself, and on the other fields
without reading them. -/
theorem next_with_stored {memory memory' : Ptr → Metadata} {p q : Ptr}
    (same : memory' q = memory p) (v : ByteState) (stored : List Ptr) :
    ({ v with stored := stored } : ByteState).next memory' q =
      { v.next memory p with stored := v.storeStep (memory p) q stored } := by
  unfold next storeStep
  rw [same]
  rfl

/-- The reports for a record, with the records of the stored assigns. -/
noncomputable def reports (warn : Bool) (v : ByteState) (m : Metadata) (stored : List Metadata) :
    List Report :=
  match m.type with
  | .assign => v.assignReports m
  | .flush => v.flushReports warn m
  | .persist => v.persistReports m
  | .order => v.orderReports m
  | .transactionEnd => if v.depth - 1 = 0 then stored.flatMap v.persistReports else []
  | .transactionAdd => v.addReports warn m
  | .fence | .transactionBegin | .exclude | .reinclude
  | .commit | .barrier | .transactionDelim | .ending => []

/-- The lines of a record print its reports, which do not depend on addresses. -/
theorem map_report_lines (warn : Bool) (memory : Ptr → Metadata) (cur : Ptr) (v : ByteState) :
    (v.lines warn memory cur).map Line.report =
      v.reports warn (memory cur) (v.stored.map memory) := by
  have own (reports : List Report) (checked : Ptr) :
      (reports.map (Line.mk cur checked)).map Line.report = reports := by
    simp [Function.comp_def]
  unfold lines reports
  cases (memory cur).type with
  | transactionEnd =>
    simp only
    split_ifs
    · simp only [List.map_flatMap, own, List.flatMap_map]
    · rfl
  | assign => exact own _ _
  | flush => exact own _ _
  | persist => exact own _ _
  | order => exact own _ _
  | transactionAdd => exact own _ _
  | _ => rfl

end ByteState

section Placement

variable {t u : Trace}

/-- The runs differ in the stored addresses, which point to the same records. -/
def SameButPlaces (t u : Trace) (v w : ByteState) : Prop :=
  ∃ stored, w = { v with stored := stored } ∧ stored.map u.memory = v.stored.map t.memory

/-- One record keeps the difference. -/
theorem SameButPlaces.next {v w : ByteState} {p q : Ptr} (places : SameButPlaces t u v w)
    (same : u.memory q = t.memory p) :
    SameButPlaces t u (v.next t.memory p) (w.next u.memory q) := by
  obtain ⟨stored, rfl, records⟩ := places
  refine ⟨_, ByteState.next_with_stored same v stored, ?_⟩
  simp only [ByteState.storeStep, ByteState.next]
  cases (t.memory p).type with
  | assign =>
    simp only
    split_ifs
    · simp only [List.map_append, records, List.map_cons, same, List.map_nil]
    · exact records
  | transactionBegin =>
    simp only
    split_ifs
    · rfl
    · exact records
  | _ => exact records

/-- Two lists of addresses that point to the same records skip the same flushes. -/
theorem hasFence_eq {memory memory' : Ptr → Metadata} {later later' : List Ptr}
    (pairs : List.Forall₂ (fun p q => memory' q = memory p) later later') :
    hasFence memory' later' = hasFence memory later := by
  induction pairs with
  | nil => rfl
  | cons same _ ih =>
    simp only [hasFence, List.any_cons] at ih ⊢
    rw [same, ih]

variable (icl : Icl) (warn : Bool)

/-- The reports that `veriProc` prints for a trace. -/
def Trace.reports (t : Trace) : List Report :=
  (veriProc icl warn t.memory t.veriptr).stdout.map Line.report

/-- The reports of a trace are those of the pass over byte states. -/
theorem Trace.reports_eq (t : Trace) :
    t.reports icl warn =
      (output (ByteState.machine warn t.memory) [] t.veriptr .initial).map Line.report := by
  rw [Trace.reports, (veriProc_refines icl warn t).1]

/-- Unmatched transactions are those still open at the end of this pass. -/
theorem transactionEndError_eq_run (t : Trace) :
    (veriProc icl warn t.memory t.veriptr).transactionEndError =
      decide (0 < (run (ByteState.machine warn t.memory) [] t.veriptr .initial).depth) := by
  rw [transactionEndError_eq, Trace.before, stateAt_length]

/-- The records in front do not notice what comes later, as long as a fence is found
there in both cases or in none. -/
theorem front_agrees {memory : Ptr → Metadata} {later later' : List Ptr}
    (fences : ∀ before, hasFence memory (before ++ later) = hasFence memory (before ++ later'))
    (front : List Ptr) :
    run (ByteState.machine warn memory) later front .initial =
        run (ByteState.machine warn memory) later' front .initial ∧
      output (ByteState.machine warn memory) later front .initial =
        output (ByteState.machine warn memory) later' front .initial := by
  apply simulate_same _ _ Eq concatenates_eq later later' _ front _ _ rfl
  rintro cur before v _ rfl
  rw [ByteState.machine, ByteState.machine, fences before]
  exact ⟨rfl, rfl⟩

/-- One step keeps the runs the same but for places, and prints the same reports. -/
theorem SameButPlaces.step {v w : ByteState} {p q : Ptr} {rest rest' : List Ptr}
    (places : SameButPlaces t u v w) (same : u.memory q = t.memory p)
    (pairs : List.Forall₂ (fun p q => u.memory q = t.memory p) rest rest') :
    SameButPlaces t u (ByteState.machine warn t.memory rest p v).1
        (ByteState.machine warn u.memory rest' q w).1 ∧
      (ByteState.machine warn t.memory rest p v).2.map Line.report =
        (ByteState.machine warn u.memory rest' q w).2.map Line.report := by
  unfold ByteState.machine
  rw [hasFence_eq pairs, same]
  split_ifs with skipped
  · exact ⟨places, rfl⟩
  · refine ⟨places.next same, ?_⟩
    obtain ⟨stored, rfl, records⟩ := places
    rw [ByteState.map_report_lines, ByteState.map_report_lines, same, records]
    rfl

/-- Two traces with the same records give the same reports, and the same message
about unmatched transactions. -/
theorem reports_eq_of_records (same : t.records = u.records) :
    t.reports icl warn = u.reports icl warn ∧
      (veriProc icl warn t.memory t.veriptr).transactionEndError =
        (veriProc icl warn u.memory u.veriptr).transactionEndError := by
  have pairs : List.Forall₂ (fun p q => u.memory q = t.memory p) t.veriptr u.veriptr := by
    have equal : List.Forall₂ Eq t.records u.records := by rw [List.forall₂_eq_eq_eq, same]
    rw [Trace.records, Trace.records, List.forall₂_map_left_iff,
      List.forall₂_map_right_iff] at equal
    exact equal.imp fun _ _ => Eq.symm
  obtain ⟨⟨stored, final, _⟩, printed⟩ := simulate_pass (ByteState.machine warn t.memory)
    (ByteState.machine warn u.memory) (fun p q => u.memory q = t.memory p)
    (fun _ => SameButPlaces t u) (concatenates_map Line.report Line.report) [] []
    (fun p rest q rest' v w same pairs places => by
      simpa only [List.append_nil] using places.step warn same pairs)
    pairs ByteState.initial ByteState.initial ⟨[], rfl, rfl⟩
  constructor
  · rw [t.reports_eq, u.reports_eq]
    exact printed
  · rw [transactionEndError_eq_run, transactionEndError_eq_run, final]

end Placement

end PMTest
