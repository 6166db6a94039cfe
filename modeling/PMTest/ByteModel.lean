import PMTest.VeriProc

/-!
# The byte-level meaning of a verification

The checker answers questions about single bytes: has this byte been written and
not flushed since, which section does its last operation belong to, has it been
logged, is it excluded. `ByteState` holds these answers as sets and functions of
bytes. Its machine makes the same pass over a trace and prints the same lines,
and it mentions neither interval containers nor signed timestamps.

`Refines` relates the checker's variables to a byte state. Every record keeps the
relation and prints the byte state's lines, so what `veriProc` prints is a
function of the trace alone: any containers that meet the interface give the same
output.
-/

namespace PMTest

open Intervals Lookahead

/-- When the last operation on a byte took effect: in its own section for a
flush, in its own section or later for an assign. -/
inductive Stamp
  | atLeast (time : Nat)
  | exactly (time : Nat)
  deriving DecidableEq, Repr

namespace Stamp

/-- The section of the stamp. -/
def time : Stamp → Nat
  | atLeast time => time
  | exactly time => time

/-- The signed integer that stores the stamp. -/
def encode : Stamp → Int
  | atLeast time => -time
  | exactly time => time

end Stamp

/-- One record's effect on the excluded bytes. -/
def excludeStep (excluded : Set Nat) (m : Metadata) : Set Nat :=
  match m.type with
  | .exclude => excluded ∪ m.bytes
  | .reinclude => excluded \ m.bytes
  | _ => excluded

/-- One record's effect on the nesting depth. -/
def depthStep (depth : Int) (m : Metadata) : Int :=
  match m.type with
  | .transactionBegin => depth + 1
  | .transactionEnd => depth - 1
  | _ => depth

/-- What the checker knows about each byte in front of a record, with the
addresses of the assigns to check when the transaction ends. -/
@[ext] structure ByteState where
  excluded : Set Nat
  dirty : Set Nat
  added : Set Nat
  stamp : Nat → Option Stamp
  stored : List Ptr
  time : Nat
  depth : Int

namespace ByteState

/-- In front of the first record nothing is known about any byte, and the first section
is number one. -/
def initial : ByteState := ⟨∅, ∅, ∅, fun _ => none, [], 1, 0⟩

/-- A record takes effect when it has a size and touches no excluded byte. -/
def Effective (v : ByteState) (m : Metadata) : Prop :=
  0 < m.size ∧ Disjoint m.bytes v.excluded

/-- The record is of the type, covers the byte and touches no excluded one. -/
def Touches (v : ByteState) (type : MetadataType) (m : Metadata) (b : Nat) : Prop :=
  m.type = type ∧ b ∈ m.bytes ∧ Disjoint m.bytes v.excluded

open Classical in
/-- The byte state behind a record that is not skipped. An assign makes its bytes
dirty and a flush makes them clean; both stamp them with the current section.
Adds count inside a transaction only, where effective assigns are stored too. -/
noncomputable def next (memory : Ptr → Metadata) (cur : Ptr) (v : ByteState) : ByteState where
  excluded := excludeStep v.excluded (memory cur)
  dirty := { b | v.Touches .assign (memory cur) b ∨
    (b ∈ v.dirty ∧ ¬ v.Touches .flush (memory cur) b) }
  added := { b | b ∈ v.added ∨
    ((memory cur).type = .transactionAdd ∧ b ∈ (memory cur).bytes ∧ 0 < v.depth) }
  stamp b :=
    if v.Touches .assign (memory cur) b then some (.atLeast v.time)
    else if v.Touches .flush (memory cur) b then some (.exactly v.time)
    else v.stamp b
  stored :=
    match (memory cur).type with
    | .assign => if v.Effective (memory cur) ∧ 0 < v.depth then v.stored ++ [cur] else v.stored
    | .transactionBegin => if v.depth = 0 then [] else v.stored
    | _ => v.stored
  time := if (memory cur).type = .fence then v.time + 1 else v.time
  depth := depthStep v.depth (memory cur)

/-- An effective operation touches exactly the bytes of its range. -/
theorem touches_iff (v : ByteState) (type : MetadataType) (m : Metadata) (b : Nat)
    (same : m.type = type) (effective : v.Effective m) : v.Touches type m b ↔ b ∈ m.bytes :=
  ⟨fun touches => touches.2.1, fun inside => ⟨same, inside, effective.2⟩⟩

/-- An operation that takes no effect touches nothing. -/
theorem not_touches (v : ByteState) (type : MetadataType) (m : Metadata) (b : Nat)
    (ignored : ¬ v.Effective m) : ¬ v.Touches type m b :=
  fun ⟨_, inside, apart⟩ => ignored ⟨Metadata.sized_of_mem inside, apart⟩

/-- An operation leaves the excluded bytes, the logged bytes, the section and the
depth alone. -/
theorem next_operation (v : ByteState) {memory : Ptr → Metadata} {cur : Ptr}
    (operation : (memory cur).IsOperation) :
    (v.next memory cur).excluded = v.excluded ∧ (v.next memory cur).added = v.added ∧
      (v.next memory cur).time = v.time ∧ (v.next memory cur).depth = v.depth := by
  cases operation with
  | inl assign => simp [next, excludeStep, depthStep, assign]
  | inr flush => simp [next, excludeStep, depthStep, flush]

/-- An operation that takes no effect changes nothing. -/
theorem next_ineffective (v : ByteState) {memory : Ptr → Metadata} {cur : Ptr}
    (operation : (memory cur).IsOperation) (ignored : ¬ v.Effective (memory cur)) :
    v.next memory cur = v := by
  unfold next excludeStep depthStep
  cases operation with
  | inl assign => ext <;> simp [assign, ignored, v.not_touches _ _ _ ignored]
  | inr flush => ext <;> simp [flush, v.not_touches _ _ _ ignored]

/-- Two states give a byte the same stamp if the record touches it in both or in
neither, and in the latter case the stamps agreed before. -/
theorem next_stamp_congr {memory : Ptr → Metadata} {cur : Ptr} {v w : ByteState} {b : Nat}
    (assign : w.Touches .assign (memory cur) b ↔ v.Touches .assign (memory cur) b)
    (flush : w.Touches .flush (memory cur) b ↔ v.Touches .flush (memory cur) b)
    (time : w.time = v.time)
    (stamp : ¬ v.Touches .assign (memory cur) b → ¬ v.Touches .flush (memory cur) b →
      w.stamp b = v.stamp b) :
    (w.next memory cur).stamp b = (v.next memory cur).stamp b := by
  classical
  simp only [next, assign, flush, time]
  split_ifs with assigned flushed
  · rfl
  · rfl
  · exact stamp assigned flushed

/-- Two states find a byte dirty behind a record alike, if the record touches it in both
or in neither, and in the latter case they agreed about it before. -/
theorem next_dirty_congr {memory : Ptr → Metadata} {cur : Ptr} {v w : ByteState} {b : Nat}
    (assign : w.Touches .assign (memory cur) b ↔ v.Touches .assign (memory cur) b)
    (flush : w.Touches .flush (memory cur) b ↔ v.Touches .flush (memory cur) b)
    (dirty : ¬ v.Touches .assign (memory cur) b → ¬ v.Touches .flush (memory cur) b →
      (b ∈ w.dirty ↔ b ∈ v.dirty)) :
    b ∈ (w.next memory cur).dirty ↔ b ∈ (v.next memory cur).dirty := by
  change _ ∨ (_ ∧ _) ↔ _ ∨ (_ ∧ _)
  rw [assign, flush]
  by_cases assigned : v.Touches .assign (memory cur) b
  · simp only [assigned, true_or]
  · by_cases flushed : v.Touches .flush (memory cur) b
    · simp only [flushed, not_true_eq_false, and_false]
    · rw [dirty assigned flushed]

/-- An address is stored behind a record if it was and no outermost begin came, or
if it is the address of an effective assign inside a transaction. -/
theorem mem_next_stored (memory : Ptr → Metadata) (cur : Ptr) (v : ByteState) (c : Ptr) :
    c ∈ (v.next memory cur).stored ↔
      (c ∈ v.stored ∧ ¬ ((memory cur).type = .transactionBegin ∧ v.depth = 0)) ∨
      (c = cur ∧ (memory cur).type = .assign ∧ v.Effective (memory cur) ∧ 0 < v.depth) := by
  simp only [next]
  cases type : (memory cur).type with
  | assign =>
    by_cases stores : v.Effective (memory cur) ∧ 0 < v.depth
    · simp [stores]
    · simp [stores]
  | transactionBegin =>
    by_cases outermost : v.depth = 0
    · simp [outermost]
    · simp [outermost]
  | _ => simp

/-- Records other than assigns and flushes leave the dirty bytes and the stamps alone. -/
theorem next_quiet (memory : Ptr → Metadata) (cur : Ptr) (v : ByteState)
    (unassigned : (memory cur).type ≠ .assign) (unflushed : (memory cur).type ≠ .flush) :
    v.next memory cur =
      { v with
        excluded := excludeStep v.excluded (memory cur)
        added := { b | b ∈ v.added ∨
          ((memory cur).type = .transactionAdd ∧ b ∈ (memory cur).bytes ∧ 0 < v.depth) }
        stored :=
          if (memory cur).type = .transactionBegin ∧ v.depth = 0 then [] else v.stored
        time := if (memory cur).type = .fence then v.time + 1 else v.time
        depth := depthStep v.depth (memory cur) } := by
  unfold next Touches
  cases type : (memory cur).type <;> simp_all

open Classical in
/-- A flush changes the dirty bytes and the stamps only. -/
theorem next_flush (memory : Ptr → Metadata) (cur : Ptr) (v : ByteState)
    (flush : (memory cur).type = .flush) :
    v.next memory cur =
      { v with
        dirty := { b | b ∈ v.dirty ∧ ¬ v.Touches .flush (memory cur) b }
        stamp := fun b =>
          if v.Touches .flush (memory cur) b then some (.exactly v.time) else v.stamp b } := by
  unfold next
  simp [Touches, excludeStep, depthStep, flush]

open Classical in
/-- An unlogged assign inside a transaction. -/
noncomputable def assignReports (v : ByteState) (m : Metadata) : List Report :=
  if v.Effective m ∧ 0 < v.depth ∧ Disjoint m.bytes v.added then
    [.assignError m.filenameTemp m.lineNum m.addrinterval.lower m.addrinterval.upper]
  else []

open Classical in
/-- A flush of clean bytes, reported by the warning build only. -/
noncomputable def flushReports (warn : Bool) (v : ByteState) (m : Metadata) : List Report :=
  if warn = true ∧ v.Effective m ∧ Disjoint m.bytes v.dirty then
    [.flushWarning m.filenameTemp m.lineNum m.addrinterval.lower m.addrinterval.upper]
  else []

open Classical in
/-- The lowest run of the dirty bytes inside the queried range. -/
noncomputable def persistReports (v : ByteState) (m : Metadata) : List Report :=
  if v.Effective m then
    (lowestRun (m.bytes ∩ v.dirty) m.addrinterval).toList.map fun run =>
      .persistError m.filenameTemp m.lineNum run.lower run.upper
  else []

/-- A persist check prints one report, about the lowest dirty run of its range, if the
range avoids the excluded bytes and holds a dirty one; otherwise it prints none. A dirty
byte of the range gives it a size and a lowest run. -/
theorem persistReports_cases (v : ByteState) (m : Metadata) :
    (∃ run, IsLowestRun (m.bytes ∩ v.dirty) m.addrinterval run ∧
      v.persistReports m = [.persistError m.filenameTemp m.lineNum run.lower run.upper] ∧
      Disjoint m.bytes v.excluded) ∨
    (v.persistReports m = [] ∧ (Disjoint m.bytes v.excluded → Disjoint m.bytes v.dirty)) := by
  unfold persistReports
  by_cases apart : Disjoint m.bytes v.dirty
  · refine .inr ⟨?_, fun _ => apart⟩
    rw [lowest_run_eq_none (apart.mono_right Set.inter_subset_right)]
    split_ifs <;> rfl
  · by_cases included : Disjoint m.bytes v.excluded
    · obtain ⟨b, inside, _⟩ := Set.not_disjoint_iff.mp apart
      have effective : v.Effective m := ⟨Metadata.sized_of_mem inside, included⟩
      obtain ⟨run, lowest⟩ := exists_lowest_run apart
      refine .inl ⟨run, lowest, ?_, included⟩
      rw [if_pos effective, Metadata.bytes, lowest_run_eq_some lowest]
      rfl
    · refine .inr ⟨?_, fun within => absurd within included⟩
      rw [if_neg fun effective => included effective.2]

/-- A persist check prints something exactly if its range avoids the excluded
bytes and holds a dirty one. -/
theorem persistReports_ne_nil_iff (v : ByteState) (m : Metadata) :
    v.persistReports m ≠ [] ↔ Disjoint m.bytes v.excluded ∧ ∃ b ∈ m.bytes, b ∈ v.dirty := by
  rcases v.persistReports_cases m with ⟨run, lowest, reports, included⟩ | ⟨silent, clean⟩
  · obtain ⟨b, inside, _⟩ := lowest.meets
    obtain ⟨member, dirty⟩ := lowest.run.inside inside
    rw [reports]
    exact iff_of_true (List.cons_ne_nil _ _) ⟨included, b, member, dirty⟩
  · rw [silent]
    apply iff_of_false (fun nonempty => nonempty rfl)
    rintro ⟨included, b, member, dirty⟩
    exact Set.disjoint_left.mp (clean included) member dirty

/-- A persist check prints one line at most, and that line is a persist error about its
record. -/
theorem persistReports_single (v : ByteState) (m : Metadata) :
    (v.persistReports m).length ≤ 1 ∧ ∀ report ∈ v.persistReports m, ∃ lower upper,
      report = .persistError m.filenameTemp m.lineNum lower upper := by
  rcases v.persistReports_cases m with ⟨run, _, reports, _⟩ | ⟨silent, _⟩
  · rw [reports]
    exact ⟨le_refl 1, fun report member => ⟨_, _, List.mem_singleton.mp member⟩⟩
  · rw [silent]
    exact ⟨Nat.zero_le 1, fun report member => absurd member List.not_mem_nil⟩

/-- A persist check reads the excluded and the dirty bytes of its range only. -/
theorem persistReports_congr {v w : ByteState} {m : Metadata}
    (excluded : Disjoint m.bytes v.excluded ↔ Disjoint m.bytes w.excluded)
    (dirty : ∀ b ∈ m.bytes, b ∈ v.dirty ↔ b ∈ w.dirty) :
    v.persistReports m = w.persistReports m := by
  classical
  have inside : m.bytes ∩ v.dirty = m.bytes ∩ w.dirty := by
    ext b
    exact and_congr_right (dirty b)
  rw [persistReports, persistReports, inside]
  exact if_congr (and_congr_right fun _ => excluded) rfl rfl

/-- Both queried ranges carry a stamp on every byte. -/
def Stamped (v : ByteState) (m : Metadata) : Prop :=
  (∀ b ∈ m.bytes, (v.stamp b).isSome) ∧ ∀ b ∈ m.bytesLate, (v.stamp b).isSome

/-- The ranges are not stamped when a byte of either one carries no stamp. -/
theorem not_stamped_iff (v : ByteState) (m : Metadata) :
    ¬ v.Stamped m ↔ ∃ b, (b ∈ m.bytes ∨ b ∈ m.bytesLate) ∧ ¬ (v.stamp b).isSome := by
  constructor
  · intro missing
    by_contra all
    refine missing ⟨fun b inside => ?_, fun b inside => ?_⟩
    · exact not_not.mp fun none => all ⟨b, .inl inside, none⟩
    · exact not_not.mp fun none => all ⟨b, .inr inside, none⟩
  · rintro ⟨b, inside | inside, none⟩ stamped
    · exact none (stamped.1 b inside)
    · exact none (stamped.2 b inside)

/-- The comparison of stamped ranges fails: an early byte may still be written
later, or is not strictly earlier than some late byte, or its time has reached
the integer that the comparison uses for an unknown time. -/
def Unordered (v : ByteState) (m : Metadata) : Prop :=
  (∃ e ∈ m.bytes, ∃ time, v.stamp e = some (.atLeast time)) ∨
  (∃ e ∈ m.bytes, ∃ l ∈ m.bytesLate, ∃ early late, v.stamp e = some early ∧
    v.stamp l = some late ∧ late.time ≤ early.time) ∨
  ∃ e ∈ m.bytes, ∃ early, v.stamp e = some early ∧ intMax ≤ early.time

/-- Both ranges of the query have a size and avoid the excluded bytes. -/
def Queried (v : ByteState) (m : Metadata) : Prop :=
  (0 < m.size ∧ 0 < m.sizeLate) ∧ Disjoint m.bytes v.excluded ∧ Disjoint m.bytesLate v.excluded

open Classical in
/-- The verdict of an order query. -/
noncomputable def orderReports (v : ByteState) (m : Metadata) : List Report :=
  if v.Queried m then
    if v.Stamped m then
      if v.Unordered m then
        [.orderError m.filenameTemp m.lineNum m.addr (endaddr m.addr m.size)
          m.addrLate (endaddr m.addrLate m.sizeLate)]
      else []
    else [.orderUnassigned m.filenameTemp m.lineNum]
  else []

/-- An order query reads the excluded bytes and the stamps of its ranges only. Each of
its three conditions quantifies over the bytes of the two ranges. -/
theorem orderReports_congr {v w : ByteState} {m : Metadata}
    (excluded : Disjoint m.bytes v.excluded ↔ Disjoint m.bytes w.excluded)
    (excludedLate : Disjoint m.bytesLate v.excluded ↔ Disjoint m.bytesLate w.excluded)
    (stamp : ∀ b ∈ m.bytes, v.stamp b = w.stamp b)
    (stampLate : ∀ b ∈ m.bytesLate, v.stamp b = w.stamp b) :
    v.orderReports m = w.orderReports m := by
  classical
  have queried : v.Queried m ↔ w.Queried m :=
    and_congr_right fun _ => and_congr excluded excludedLate
  have stamped : v.Stamped m ↔ w.Stamped m := by
    refine and_congr (forall₂_congr fun b member => ?_) (forall₂_congr fun b member => ?_)
    · rw [stamp b member]
    · rw [stampLate b member]
  have unordered : v.Unordered m ↔ w.Unordered m := by
    refine or_congr ?_ (or_congr ?_ ?_)
    · exact exists_congr fun e => and_congr_right fun member => by rw [stamp e member]
    · refine exists_congr fun e => and_congr_right fun member => exists_congr fun l =>
        and_congr_right fun memberLate => ?_
      rw [stamp e member, stampLate l memberLate]
    · exact exists_congr fun e => and_congr_right fun member => by rw [stamp e member]
  rw [orderReports, orderReports]
  exact if_congr queried (if_congr stamped (if_congr unordered rfl rfl) rfl) rfl

open Classical in
/-- A logged range inside a transaction that overlaps an earlier one, reported by
the warning build only. -/
noncomputable def addReports (warn : Bool) (v : ByteState) (m : Metadata) : List Report :=
  if warn = true ∧ (0 < v.depth ∧ 0 < m.size) ∧ ¬ Disjoint m.bytes v.added then
    [.transactionAddWarning m.filenameTemp m.lineNum m.addrinterval.lower m.addrinterval.upper]
  else []

/-- The lines printed for a record that is not skipped. -/
noncomputable def lines (warn : Bool) (memory : Ptr → Metadata) (cur : Ptr) (v : ByteState) :
    List Line :=
  match (memory cur).type with
  | .assign => (v.assignReports (memory cur)).map (Line.mk cur cur)
  | .flush => (v.flushReports warn (memory cur)).map (Line.mk cur cur)
  | .persist => (v.persistReports (memory cur)).map (Line.mk cur cur)
  | .order => (v.orderReports (memory cur)).map (Line.mk cur cur)
  | .transactionEnd =>
      if v.depth - 1 = 0 then
        v.stored.flatMap fun stored => (v.persistReports (memory stored)).map (Line.mk cur stored)
      else []
  | .transactionAdd => (v.addReports warn (memory cur)).map (Line.mk cur cur)
  | .fence | .transactionBegin | .exclude | .reinclude
  | .commit | .barrier | .transactionDelim | .ending => []

/-- The byte-level pass. -/
noncomputable def machine (warn : Bool) (memory : Ptr → Metadata) : Machine Ptr ByteState Line :=
  fun later cur v =>
    if (memory cur).type = .flush ∧ hasFence memory later = false then (v, [])
    else (v.next memory cur, v.lines warn memory cur)

end ByteState

/-- The checker's variables hold the byte state. Stored stamps keep their sign
because every section number is positive. -/
structure Refines {icl : Icl} (s : VeriState icl) (v : ByteState) : Prop where
  excluded : icl.toSet s.excludeInfo = v.excluded
  dirty : icl.toSet s.persistInfo = v.dirty
  added : icl.toSet s.transactionAddInfo = v.added
  stamp : ∀ b, icl.lookup s.orderInfo b = (v.stamp b).map Stamp.encode
  stored : s.transactionPersistInfo = v.stored
  time : s.timestamp = v.time
  depth : s.transactionCount = v.depth
  positive : 0 < v.time
  stamped : ∀ b stamp, v.stamp b = some stamp → 0 < stamp.time

section Handlers

variable {icl : Icl} {s : VeriState icl} {v : ByteState}

/-- All containers are empty at the start. -/
theorem refines_initial (icl : Icl) : Refines (VeriState.initial icl) ByteState.initial where
  excluded := icl.toSet_empty
  dirty := icl.toSet_empty
  added := icl.toSet_empty
  stamp b := icl.lookup_empty b
  stored := rfl
  time := rfl
  depth := rfl
  positive := Nat.one_pos
  stamped b stamp found := by simp [ByteState.initial] at found

namespace Refines

/-- The handlers' guard is the byte state's condition for taking effect. -/
theorem effective_iff (refines : Refines s v) (m : Metadata) :
    (0 < m.size ∧ icl.find s.excludeInfo m.addrinterval = none) ↔ v.Effective m := by
  rw [icl.find_eq_none, refines.excluded]
  rfl

/-- The search for a logged range finds none exactly when no byte is logged. -/
theorem find_added (refines : Refines s v) (m : Metadata) :
    icl.find s.transactionAddInfo m.addrinterval = none ↔ Disjoint m.bytes v.added := by
  rw [icl.find_eq_none, refines.added]
  rfl

/-- The search in the persist set finds none exactly when no byte is dirty. -/
theorem find_dirty (refines : Refines s v) (m : Metadata) :
    icl.find s.persistInfo m.addrinterval = none ↔ Disjoint m.bytes v.dirty := by
  rw [icl.find_eq_none, refines.dirty]
  rfl

/-- Writing one encoded stamp over a range changes the stamps of its bytes only. -/
theorem lookup_stamped (refines : Refines s v) (m : Metadata) (stamp : Stamp)
    (stamps : Nat → Option Stamp) (inside : ∀ b ∈ m.bytes, stamps b = some stamp)
    (outside : ∀ b, b ∉ m.bytes → stamps b = v.stamp b) (b : Nat) :
    icl.lookup (icl.assign s.orderInfo m.addrinterval stamp.encode) b =
      (stamps b).map Stamp.encode := by
  by_cases covered : b ∈ m.bytes
  · rw [inside b covered]
    exact icl.lookup_assign_inside _ _ _ b covered
  · rw [outside b covered, ← refines.stamp b]
    exact icl.lookup_assign_outside _ _ _ b covered

/-- Every stamp behind a record is positive: old ones are, and the current
section is. -/
theorem next_stamped (refines : Refines s v) (memory : Ptr → Metadata) (cur : Ptr) (b : Nat)
    (stamp : Stamp) (found : (v.next memory cur).stamp b = some stamp) : 0 < stamp.time := by
  simp only [ByteState.next] at found
  split_ifs at found
  · exact Option.some.inj found ▸ refines.positive
  · exact Option.some.inj found ▸ refines.positive
  · exact refines.stamped b stamp found

/-- An assign stores the stamp of the current section or later ones. -/
theorem encode_atleast (refines : Refines s v) :
    timestampAtleast s.timestamp = (Stamp.atLeast v.time).encode := by
  have positive := refines.positive
  rw [refines.time, timestampAtleast, if_pos (by omega), Stamp.encode]

/-- A flush stores the stamp of the current section. -/
theorem encode_exactly (refines : Refines s v) :
    timestampExactly s.timestamp = (Stamp.exactly v.time).encode := by
  have positive := refines.positive
  rw [refines.time, timestampExactly, if_neg (by omega), Stamp.encode]

/-- An operation changes the persist set, the stamps and the stored addresses only. -/
theorem of_operation (refines : Refines s v) {memory : Ptr → Metadata} {cur : Ptr}
    (operation : (memory cur).IsOperation) {persistInfo : icl.SetOf} {orderInfo : icl.MapOf}
    {transactionPersistInfo : List Ptr}
    (dirty : icl.toSet persistInfo = (v.next memory cur).dirty)
    (stamp : ∀ b, icl.lookup orderInfo b = ((v.next memory cur).stamp b).map Stamp.encode)
    (stored : transactionPersistInfo = (v.next memory cur).stored) :
    Refines { s with
      persistInfo := persistInfo
      orderInfo := orderInfo
      transactionPersistInfo := transactionPersistInfo } (v.next memory cur) := by
  obtain ⟨excluded, added, time, depth⟩ := v.next_operation operation
  exact
    { excluded := refines.excluded.trans excluded.symm
      dirty := dirty
      added := refines.added.trans added.symm
      stamp := stamp
      stored := stored
      time := by rw [time, refines.time]
      depth := refines.depth.trans depth.symm
      positive := time ▸ refines.positive
      stamped := refines.next_stamped memory cur }

end Refines

/-- An assign keeps the relation and reports a missing log entry. One without effect
leaves both sides alone; any other adds its range to the persist set, stamps it and is
stored inside a transaction, in the containers as in the byte state. -/
theorem assign_refines (refines : Refines s v) (memory : Ptr → Metadata) (cur : Ptr)
    (type : (memory cur).type = .assign) :
    Refines (veriProcAssign (memory cur) cur s).state (v.next memory cur) ∧
      (veriProcAssign (memory cur) cur s).reports = v.assignReports (memory cur) := by
  have unflushed (b : Nat) : ¬ v.Touches .flush (memory cur) b := fun touches =>
    absurd (type.symm.trans touches.1) (by decide)
  by_cases effective : v.Effective (memory cur)
  · obtain ⟨sized, included⟩ := (refines.effective_iff (memory cur)).mpr effective
    obtain ⟨state, reports⟩ := assign_effective (memory cur) cur s sized included
    have touched (b : Nat) := v.touches_iff .assign (memory cur) b type effective
    rw [state, reports]
    refine ⟨refines.of_operation (.inl type) ?_ ?_ ?_, ?_⟩
    · ext b
      simp [ByteState.next, touched, unflushed, refines.dirty, Metadata.bytes, or_comm]
    · rw [refines.encode_atleast]
      refine refines.lookup_stamped _ _ _ (fun b inside => ?_) (fun b outside => ?_)
      · simp [ByteState.next, touched, inside]
      · simp [ByteState.next, touched, unflushed, outside]
    · simp [ByteState.next, type, refines.depth, refines.stored, effective]
    · classical
      refine if_congr ?_ rfl rfl
      rw [refines.depth, refines.find_added]
      exact (and_iff_right effective).symm
  · obtain ⟨state, reports⟩ := assign_ignored (memory cur) cur s
      (fun guard => effective ((refines.effective_iff (memory cur)).mp guard))
    rw [state, reports, v.next_ineffective (.inl type) effective, ByteState.assignReports,
      if_neg (fun both => effective both.1)]
    exact ⟨refines, rfl⟩

/-- A flush keeps the relation in both builds. Where the warning build finds no
dirty byte there is nothing for the plain build to subtract. -/
theorem flush_refines (refines : Refines s v) (warn : Bool) (memory : Ptr → Metadata) (cur : Ptr)
    (type : (memory cur).type = .flush) :
    Refines (veriProcFlush warn (memory cur) s).state (v.next memory cur) ∧
      (veriProcFlush warn (memory cur) s).reports = v.flushReports warn (memory cur) := by
  have unassigned (b : Nat) : ¬ v.Touches .assign (memory cur) b := fun touches =>
    absurd (type.symm.trans touches.1) (by decide)
  by_cases effective : v.Effective (memory cur)
  · obtain ⟨sized, included⟩ := (refines.effective_iff (memory cur)).mpr effective
    obtain ⟨state, reports⟩ := flush_effective warn (memory cur) s sized included
    have touched (b : Nat) := v.touches_iff .flush (memory cur) b type effective
    have cleaned : (v.next memory cur).dirty = v.dirty \ (memory cur).bytes := by
      ext b
      simp [ByteState.next, touched, unassigned]
    rw [state, reports]
    refine ⟨refines.of_operation (.inr type) ?_ ?_ ?_, ?_⟩
    · rw [cleaned]
      split_ifs with clean
      · have apart := (refines.find_dirty (memory cur)).mp clean.2
        rw [refines.dirty, apart.symm.sdiff_eq_left]
      · rw [icl.toSet_subtract, refines.dirty]
        rfl
    · rw [refines.encode_exactly]
      refine refines.lookup_stamped _ _ _ (fun b inside => ?_) (fun b outside => ?_)
      · simp [ByteState.next, touched, unassigned, inside]
      · simp [ByteState.next, touched, unassigned, outside]
    · simp [ByteState.next, type, refines.stored]
    · classical
      refine if_congr ?_ rfl rfl
      rw [refines.find_dirty]
      exact and_congr_right fun _ => (and_iff_right effective).symm
  · obtain ⟨state, reports⟩ := flush_ignored warn (memory cur) s
      (fun guard => effective ((refines.effective_iff (memory cur)).mp guard))
    rw [state, reports, v.next_ineffective (.inr type) effective, ByteState.flushReports,
      if_neg (fun both => effective both.2.1)]
    exact ⟨refines, rfl⟩

/-- A persist check prints the lowest dirty run of the byte state. The container finds
the lowest run of the persist set that meets the range, and the code prints the part of
it inside the range, which is the lowest run of the dirty bytes there. -/
theorem persist_refines (refines : Refines s v) (m : Metadata) :
    (veriProcPersist m s.excludeInfo s.persistInfo).2 = v.persistReports m := by
  unfold veriProcPersist ByteState.persistReports
  by_cases effective : v.Effective m
  · obtain ⟨sized, included⟩ := (refines.effective_iff m).mpr effective
    simp only [sized, included, Option.isSome_none, Bool.false_eq_true, if_false,
      if_true, if_pos effective]
    cases found : icl.find s.persistInfo m.addrinterval with
    | none =>
      have apart := (refines.find_dirty m).mp found
      rw [lowest_run_eq_none (apart.mono_right Set.inter_subset_right)]
      rfl
    | some run =>
      have lowest := (icl.find_lowest _ _ _ found).clip
      rw [refines.dirty] at lowest
      rw [Metadata.bytes, lowest_run_eq_some lowest]
      rfl
  · have guard := fun guard => effective ((refines.effective_iff m).mp guard)
    rw [if_neg effective]
    split_ifs with sized excluded
    · rfl
    · exact absurd ⟨sized, by simpa using excluded⟩ guard
    · rfl

/-- A property of some segment of a restriction is a property of the stamp of
some byte of the interval. -/
theorem restrict_stamps (refines : Refines s v) (i : RightOpen Nat) (holds : Int → Prop) :
    (∃ segment ∈ icl.restrict i s.orderInfo, holds segment.2) ↔
      ∃ b ∈ i.elements, ∃ stamp, v.stamp b = some stamp ∧ holds stamp.encode := by
  constructor
  · rintro ⟨segment, member, held⟩
    obtain ⟨b, inside, found⟩ := (icl.restrict_values i s.orderInfo segment.2).mp
      ⟨segment, member, rfl⟩
    rw [refines.stamp, Option.map_eq_some_iff] at found
    obtain ⟨stamp, marked, same⟩ := found
    exact ⟨b, inside, stamp, marked, same ▸ held⟩
  · rintro ⟨b, inside, stamp, marked, held⟩
    obtain ⟨segment, member, same⟩ := (icl.restrict_values i s.orderInfo stamp.encode).mpr
      ⟨b, inside, by rw [refines.stamp, marked, Option.map_some]⟩
    exact ⟨segment, member, same ▸ held⟩

/-- The map covers a range exactly when every byte of it has a stamp. -/
theorem within_refines (refines : Refines s v) (i : RightOpen Nat) :
    icl.within i s.orderInfo = true ↔ ∀ b ∈ i.elements, (v.stamp b).isSome := by
  simp only [icl.within_iff, refines.stamp, Option.isSome_map]

namespace Stamp

/-- The comparison reads off the section of a stamp. -/
theorem exactly_encode (stamp : Stamp) : timestampExactly stamp.encode = stamp.time := by
  cases stamp <;> simp only [encode, time, timestampExactly] <;> split_ifs <;> omega

/-- The sign tells the kind of a stamp. -/
theorem encode_neg_iff (stamp : Stamp) (positive : 0 < stamp.time) :
    stamp.encode < 0 ↔ ∃ time, stamp = .atLeast time := by
  cases stamp <;> simp_all [encode, time]

end Stamp

/-- The two loops and their comparison decide `Unordered`. An inexact early stamp makes
the early maximum the largest integer, which no late minimum exceeds; an exact one is
compared with every late stamp and with the start of the late loop.

Both loops are described by the bounds they reach. The early maximum reaches a bound if
some early stamp does, so the late minimum is below it if it is the largest integer or
below some early stamp, and then some late stamp is. -/
theorem unordered_iff (refines : Refines s v) (m : Metadata) :
    lateMin intMax (icl.restrict m.addrintervalLate s.orderInfo) ≤
      earlyMax 0 (icl.restrict m.addrinterval s.orderInfo) ↔ v.Unordered m := by
  have small : lateMin intMax (icl.restrict m.addrintervalLate s.orderInfo) ≤ intMax :=
    (lateMin_le_iff _ _ _).mpr (.inl (le_refl _))
  have reached (bound : Int) :
      lateMin intMax (icl.restrict m.addrintervalLate s.orderInfo) ≤ bound ↔
        intMax ≤ bound ∨ ∃ l ∈ m.bytesLate, ∃ late, v.stamp l = some late ∧ late.time ≤ bound := by
    rw [lateMin_le_iff, restrict_stamps refines m.addrintervalLate
      (fun value => timestampExactly value ≤ bound)]
    simp only [Stamp.exactly_encode]
    rfl
  rw [le_earlyMax_iff _ _ _ small, restrict_stamps refines m.addrinterval (fun value => value < 0),
    restrict_stamps refines m.addrinterval (fun value => lateMin intMax _ ≤ value)]
  constructor
  · rintro (⟨e, inside, stamp, marked, negative⟩ | zero | ⟨e, inside, stamp, marked, least⟩)
    · obtain ⟨time, rfl⟩ := (stamp.encode_neg_iff (refines.stamped e stamp marked)).mp negative
      exact .inl ⟨e, inside, time, marked⟩
    · rcases (reached 0).mp zero with impossible | ⟨l, _, late, marked, below⟩
      · simp [intMax] at impossible
      · have positive := refines.stamped l late marked
        omega
    · have bounded : stamp.encode ≤ stamp.time := by
        cases stamp <;> simp only [Stamp.encode, Stamp.time] <;> omega
      rcases (reached _).mp least with huge | ⟨l, insideLate, late, markedLate, below⟩
      · exact .inr (.inr ⟨e, inside, stamp, marked, huge.trans bounded⟩)
      · exact .inr (.inl ⟨e, inside, l, insideLate, stamp, late, marked, markedLate,
          by exact_mod_cast below.trans bounded⟩)
  · rintro (⟨e, inside, time, marked⟩ | rest)
    · exact .inl ⟨e, inside, _, marked,
        (Stamp.encode_neg_iff _ (refines.stamped e _ marked)).mpr ⟨time, rfl⟩⟩
    · -- an early stamp that is not exact falls under the first alternative
      have settle (e : Nat) (inside : e ∈ m.bytes) (stamp : Stamp) (marked : v.stamp e = some stamp)
          (least : lateMin intMax (icl.restrict m.addrintervalLate s.orderInfo) ≤ stamp.time) :
          (∃ b ∈ m.addrinterval.elements, ∃ stamp, v.stamp b = some stamp ∧ stamp.encode < 0) ∨
            lateMin intMax (icl.restrict m.addrintervalLate s.orderInfo) ≤ 0 ∨
            ∃ b ∈ m.addrinterval.elements, ∃ stamp, v.stamp b = some stamp ∧
              lateMin intMax (icl.restrict m.addrintervalLate s.orderInfo) ≤ stamp.encode := by
        cases stamp with
        | atLeast time =>
          exact .inl ⟨e, inside, _, marked,
            (Stamp.encode_neg_iff _ (refines.stamped e _ marked)).mpr ⟨time, rfl⟩⟩
        | exactly time => exact .inr (.inr ⟨e, inside, _, marked, least⟩)
      rcases rest with ⟨e, inside, l, insideLate, early, late, marked, markedLate, below⟩ |
        ⟨e, inside, early, marked, huge⟩
      · exact settle e inside early marked
          ((reached _).mpr (.inr ⟨l, insideLate, late, markedLate, by exact_mod_cast below⟩))
      · exact settle e inside early marked ((reached _).mpr (.inl huge))

/-- An order query prints the byte state's verdict. The branches of the code ask for
sizes and exclusions first, then whether the ranges are covered, and last for the
comparison. -/
theorem order_refines (refines : Refines s v) (m : Metadata) :
    (veriProcOrder m s.excludeInfo s.orderInfo).2 = v.orderReports m := by
  have early : icl.find s.excludeInfo m.addrinterval = none ↔ Disjoint m.bytes v.excluded := by
    rw [icl.find_eq_none, refines.excluded]
    rfl
  have late : icl.find s.excludeInfo m.addrintervalLate = none ↔
      Disjoint m.bytesLate v.excluded := by
    rw [icl.find_eq_none, refines.excluded]
    rfl
  unfold veriProcOrder ByteState.orderReports
  by_cases queried : v.Queried m
  · have included := early.mpr queried.2.1
    have includedLate := late.mpr queried.2.2
    have stamped : (icl.within m.addrinterval s.orderInfo = true ∧
        icl.within m.addrintervalLate s.orderInfo = true) ↔ v.Stamped m := by
      rw [within_refines refines, within_refines refines]
      rfl
    rw [if_pos queried.1, if_pos queried]
    simp only [included, includedLate, Option.isSome_none, Bool.false_eq_true, if_false]
    by_cases marked : v.Stamped m
    · rw [if_pos (stamped.mpr marked), if_pos marked]
      by_cases unordered : v.Unordered m
      · rw [if_pos ((unordered_iff refines m).mpr unordered), if_pos unordered]
      · rw [if_neg (fun compared => unordered ((unordered_iff refines m).mp compared)),
          if_neg unordered]
    · rw [if_neg (fun both => marked (stamped.mp both)), if_neg marked]
  · rw [if_neg queried]
    split_ifs with sized excluded excludedLate
    · rfl
    · rfl
    all_goals first
      | rfl
      | exact absurd ⟨sized, early.mp (by simpa using excluded),
          late.mp (by simpa using excludedLate)⟩ queried

/-- A logged range keeps the relation and warns about an overlap. Outside of a
transaction, or without a size, neither side does anything. -/
theorem add_refines (refines : Refines s v) (warn : Bool) (memory : Ptr → Metadata) (cur : Ptr)
    (type : (memory cur).type = .transactionAdd) :
    Refines (veriProcTransactionAdd warn (memory cur) s).2 (v.next memory cur) ∧
      (veriProcTransactionAdd warn (memory cur) s).1 = v.addReports warn (memory cur) := by
  simp only [ByteState.next_quiet, type, ne_eq, reduceCtorEq, not_false_eq_true, true_and,
    false_and, if_false, excludeStep, depthStep, ByteState.addReports, veriProcTransactionAdd,
    gt_iff_lt, refines.depth]
  by_cases counted : 0 < v.depth ∧ 0 < (memory cur).size
  · have overlap : (icl.find s.transactionAddInfo (memory cur).addrinterval).isSome = true ↔
        ¬ Disjoint (memory cur).bytes v.added := by
      rw [← refines.find_added, Option.isSome_iff_ne_none]
    rw [if_pos counted.1, if_pos counted.2]
    refine ⟨{ refines with added := ?_, depth := rfl }, ?_⟩
    · ext b
      simp [refines.added, counted, Metadata.bytes]
    · classical
      cases warn <;> simp [overlap, counted]
  · have unlogged : { b | b ∈ v.added ∨ b ∈ (memory cur).bytes ∧ 0 < v.depth } = v.added := by
      ext b
      exact ⟨fun logged => logged.resolve_right fun both =>
        counted ⟨both.2, Metadata.sized_of_mem both.1⟩, .inl⟩
    have silent : ¬ (warn = true ∧ (0 < v.depth ∧ 0 < (memory cur).size) ∧
        ¬ Disjoint (memory cur).bytes v.added) := fun all => counted all.2.1
    rw [unlogged, if_neg silent]
    by_cases inside : 0 < v.depth
    · rw [if_pos inside, if_neg (fun sized => counted ⟨inside, sized⟩)]
      exact ⟨refines, rfl⟩
    · rw [if_neg inside]
      exact ⟨refines, rfl⟩

/-- One processed record keeps the relation and prints the byte state's lines. There is
one case for each type of record, and each one is the lemma about its handler. -/
theorem process_refines (refines : Refines s v) (warn : Bool) (memory : Ptr → Metadata)
    (cur : Ptr) :
    Refines (process warn memory cur s).1 (v.next memory cur) ∧
      (process warn memory cur s).2 = v.lines warn memory cur := by
  cases type : (memory cur).type with
  | assign =>
    obtain ⟨kept, reports⟩ := assign_refines refines memory cur type
    simp only [process, type, ByteState.lines, reports]
    exact ⟨kept, trivial⟩
  | flush =>
    obtain ⟨kept, reports⟩ := flush_refines refines warn memory cur type
    simp only [process, type, ByteState.lines, reports]
    exact ⟨kept, trivial⟩
  | transactionAdd =>
    obtain ⟨kept, reports⟩ := add_refines refines warn memory cur type
    simp only [process, type, ByteState.lines, reports]
    exact ⟨kept, trivial⟩
  | fence =>
    simp only [process, type, ByteState.lines, veriProcFence, and_true]
    simpa [ByteState.next_quiet, type, excludeStep, depthStep] using
      { refines with time := by simp [refines.time], positive := Nat.succ_pos _ }
  | persist =>
    simp only [process, type, ByteState.lines, persist_refines refines, and_true]
    simpa [ByteState.next_quiet, type, excludeStep, depthStep] using refines
  | order =>
    simp only [process, type, ByteState.lines, order_refines refines, and_true]
    simpa [ByteState.next_quiet, type, excludeStep, depthStep] using refines
  | transactionBegin =>
    simp only [process, type, ByteState.lines, veriProcTransactionBegin, and_true, refines.depth]
    rw [v.next_quiet memory cur (by rw [type]; decide) (by rw [type]; decide)]
    simp only [type, excludeStep, depthStep, true_and, reduceCtorEq, false_and, or_false, if_false]
    by_cases outermost : v.depth = 0
    · rw [if_pos outermost, if_pos outermost]
      exact { refines with stored := rfl, depth := rfl }
    · rw [if_neg outermost, if_neg outermost]
      exact { refines with depth := congrArg (· + 1) refines.depth }
  | transactionEnd =>
    simp only [process, type, ByteState.lines, recheckLines, refines.depth,
      persist_refines refines, refines.stored, and_true]
    simpa [ByteState.next_quiet, type, excludeStep, depthStep] using
      { refines with stored := rfl, depth := rfl }
  | exclude =>
    simp only [process, type, ByteState.lines, veriProcExclude, gt_iff_lt, and_true]
    rw [v.next_quiet memory cur (by rw [type]; decide) (by rw [type]; decide)]
    simp only [type, excludeStep, depthStep, reduceCtorEq, false_and, or_false, if_false]
    split_ifs with sized
    · exact { refines with excluded := by rw [icl.toSet_add, refines.excluded]; rfl }
    · rw [Metadata.bytes_eq_empty _ (by omega), Set.union_empty]
      exact refines
  | reinclude =>
    simp only [process, type, ByteState.lines, veriProcInclude, gt_iff_lt, and_true]
    rw [v.next_quiet memory cur (by rw [type]; decide) (by rw [type]; decide)]
    simp only [type, excludeStep, depthStep, reduceCtorEq, false_and, or_false, if_false]
    split_ifs with sized
    · exact { refines with excluded := by rw [icl.toSet_subtract, refines.excluded]; rfl }
    · rw [Metadata.bytes_eq_empty _ (by omega), Set.sdiff_empty]
      exact refines
  | commit | barrier | transactionDelim | ending =>
    simp only [process, type, ByteState.lines, and_true]
    simpa [ByteState.next_quiet, type, excludeStep, depthStep] using refines

/-- One in-order step keeps the relation and prints the byte state's lines. It skips the
flushes that the byte-level pass skips. -/
theorem in_order_refines (refines : Refines s v) (warn : Bool) (memory : Ptr → Metadata)
    (later : List Ptr) (cur : Ptr) :
    Refines (inOrder icl warn memory later cur s).1
        (ByteState.machine warn memory later cur v).1 ∧
      (inOrder icl warn memory later cur s).2 =
        (ByteState.machine warn memory later cur v).2 := by
  unfold inOrder ByteState.machine
  split_ifs
  · exact ⟨refines, rfl⟩
  · exact process_refines refines warn memory cur

end Handlers

section Pass

variable (icl : Icl) (warn : Bool)

/-- The in-order pass and the byte-level pass over the same records, with the same
records behind them, stay related and print the same lines. -/
theorem pass_refines (memory : Ptr → Metadata) (later items : List Ptr) :
    Refines (run (inOrder icl warn memory) later items (VeriState.initial icl))
        (run (ByteState.machine warn memory) later items ByteState.initial) ∧
      output (inOrder icl warn memory) later items (VeriState.initial icl) =
        output (ByteState.machine warn memory) later items ByteState.initial :=
  simulate_same (inOrder icl warn memory) (ByteState.machine warn memory) Refines concatenates_eq
    later later (fun x rest _ _ refines => in_order_refines refines warn memory (rest ++ later) x)
    items _ _ (refines_initial icl)

/-- In front of every position of the in-order pass the variables hold the byte
state of the byte-level pass. -/
theorem stateAt_refines (memory : Ptr → Metadata) (veriptr : List Ptr) (position : Nat) :
    Refines (stateAt (inOrder icl warn memory) veriptr (VeriState.initial icl) position)
      (stateAt (ByteState.machine warn memory) veriptr ByteState.initial position) :=
  (pass_refines icl warn memory (veriptr.drop position) (veriptr.take position)).1

/-- `veriProc` prints what the byte-level pass prints, and its final variables
hold the final byte state. The containers no longer occur on the right. -/
theorem veriProc_refines (t : Trace) :
    (veriProc icl warn t.memory t.veriptr).stdout =
      output (ByteState.machine warn t.memory) [] t.veriptr ByteState.initial ∧
    Refines (veriProc icl warn t.memory t.veriptr).state
      (run (ByteState.machine warn t.memory) [] t.veriptr ByteState.initial) := by
  obtain ⟨stdout, state, _⟩ := replay_eq_in_order icl warn t
  obtain ⟨final, emitted⟩ := pass_refines icl warn t.memory [] t.veriptr
  rw [stdout, state]
  exact ⟨emitted, final⟩

/-- Every line names the record whose turn printed it, also the lines that a transaction
end prints about stored assigns. -/
theorem processed_eq (memory : Ptr → Metadata) (later : List Ptr) (cur : Ptr) (v : ByteState) :
    ∀ line ∈ (ByteState.machine warn memory later cur v).2, line.processed = cur := by
  have own (reports : List Report) (checked : Ptr) :
      ∀ line ∈ reports.map (Line.mk cur checked), line.processed = cur := by
    intro line member
    obtain ⟨report, _, rfl⟩ := List.mem_map.mp member
    rfl
  intro line member
  unfold ByteState.machine at member
  split_ifs at member with skipped
  · simp at member
  · unfold ByteState.lines at member
    split at member
    case h_5 =>
      split_ifs at member with outermost
      · obtain ⟨stored, _, printed⟩ := List.mem_flatMap.mp member
        exact own _ _ line printed
      · simp at member
    all_goals first | exact own _ _ line member | simp at member

/-- The byte state in front of a position. -/
noncomputable def Trace.before (t : Trace) (position : Nat) : ByteState :=
  stateAt (ByteState.machine warn t.memory) t.veriptr ByteState.initial position

/-- The persist set in front of a position. -/
def persistInfoBefore (t : Trace) (position : Nat) : icl.SetOf :=
  (stateAt (inOrder icl warn t.memory) t.veriptr (VeriState.initial icl) position).persistInfo

/-- The persist set in front of a position holds the dirty bytes of the byte state. -/
theorem toSet_persistInfoBefore (t : Trace) (position : Nat) :
    icl.toSet (persistInfoBefore icl warn t position) = (t.before warn position).dirty :=
  (stateAt_refines icl warn t.memory t.veriptr position).dirty

/-- The record is a flush that no later fence of the trace follows. -/
def Trace.Skipped (t : Trace) (position : Nat) (cur : Ptr) : Prop :=
  (t.memory cur).type = .flush ∧ hasFence t.memory (t.veriptr.drop (position + 1)) = false

instance (t : Trace) (position : Nat) (cur : Ptr) : Decidable (t.Skipped position cur) :=
  inferInstanceAs (Decidable (_ ∧ _))

/-- One step of the byte-level pass over a trace. -/
theorem machine_eq (t : Trace) (position : Nat) (cur : Ptr) (v : ByteState) :
    ByteState.machine warn t.memory (t.veriptr.drop (position + 1)) cur v =
      if t.Skipped position cur then (v, [])
      else (v.next t.memory cur, v.lines warn t.memory cur) := rfl

/-- Crossing a position performs the step of its record, unless it is skipped. -/
theorem before_succ (t : Trace) {position : Nat} {cur : Ptr}
    (found : t.veriptr[position]? = some cur) :
    t.before warn (position + 1) =
      if t.Skipped position cur then t.before warn position
      else (t.before warn position).next t.memory cur := by
  rw [Trace.before, stateAt_succ _ _ _ _ _ found, machine_eq]
  split_ifs <;> rfl

/-- The lines that `veriProc` prints when it processes a record. -/
def printedBy (t : Trace) (cur : Ptr) : List Line :=
  (veriProc icl warn t.memory t.veriptr).stdout.filter fun line => line.processed = cur

/-- The lines printed for a record are those of the byte state in front of its position,
and none if the record is skipped. -/
theorem printedBy_eq (t : Trace) (position : Nat) (cur : Ptr)
    (found : t.veriptr[position]? = some cur) :
    printedBy icl warn t cur =
      if t.Skipped position cur then []
      else (t.before warn position).lines warn t.memory cur := by
  rw [printedBy, (veriProc_refines icl warn t).1,
    output_filter_key (ByteState.machine warn t.memory) Line.processed
      (processed_eq warn t.memory) t.veriptr t.distinct _ position cur found, machine_eq]
  split_ifs <;> rfl

/-- The message about unmatched transactions reads the final nesting depth. -/
theorem transactionEndError_eq (t : Trace) :
    (veriProc icl warn t.memory t.veriptr).transactionEndError =
      decide (0 < (t.before warn t.veriptr.length).depth) := by
  have final := (veriProc_refines icl warn t).2
  rw [← stateAt_length, ← Trace.before] at final
  rw [← final.depth]
  rfl

/-- Records other than flushes are never skipped. -/
theorem printedBy_of_ne_flush (t : Trace) {position : Nat} {cur : Ptr}
    (found : t.veriptr[position]? = some cur) (other : (t.memory cur).type ≠ .flush) :
    printedBy icl warn t cur = (t.before warn position).lines warn t.memory cur := by
  rw [printedBy_eq icl warn t position cur found, if_neg fun skipped => other skipped.1]

end Pass

end PMTest
