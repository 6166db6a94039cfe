import PMTest.RecordPass
import PMTest.RepeatedFence

/-!
# Two passes that know the same about some bytes

The check of a record reads what is known about the bytes of its ranges, and whether a
transaction is open. Two states that agree on these bytes give the same reports, and
they still agree behind the record. Most comparisons of two traces reduce to this,
possibly after the sections of one of them have got other numbers.

An order query compares section numbers with the largest integer. A flush counts only
if a fence follows it, so in a trace with fewer fences than that integer no exact time
is that large.
-/

namespace PMTest

open Lookahead

/-- The bytes whose state the check of a record reads. -/
def Metadata.reads (m : Metadata) : Set Nat :=
  match m.type with
  | .assign | .flush | .persist | .transactionAdd => m.bytes
  | .order => m.bytes ∪ m.bytesLate
  | _ => ∅

/-- The bytes whose state a record may change. -/
def Metadata.writes (m : Metadata) : Set Nat :=
  match m.type with
  | .assign | .flush | .transactionAdd | .exclude | .reinclude => m.bytes
  | _ => ∅

/-- The types with an effect on bytes may change every byte of their range. -/
theorem Metadata.mem_writes {m : Metadata} {b : Nat} (inside : b ∈ m.bytes)
    (marks : m.type = .assign ∨ m.type = .flush ∨ m.type = .transactionAdd ∨ m.type = .exclude ∨
      m.type = .reinclude) : b ∈ m.writes := by
  unfold writes
  rcases marks with type | type | type | type | type <;> rw [type] <;> exact inside

/-- Sets that agree on a range meet it in the same cases. -/
theorem disjoint_congr {range few many : Set Nat} (same : ∀ b ∈ range, b ∈ few ↔ b ∈ many) :
    Disjoint range few ↔ Disjoint range many := by
  rw [Set.disjoint_left, Set.disjoint_left]
  exact forall₂_congr fun b inside => not_congr (same b inside)

namespace ByteState

/-- Two states that know the same about the bytes of a range. They may differ outside of
it, and in their section numbers and depths. -/
structure AgreeOn (range : Set Nat) (v w : ByteState) : Prop where
  excluded : ∀ b ∈ range, b ∈ v.excluded ↔ b ∈ w.excluded
  dirty : ∀ b ∈ range, b ∈ v.dirty ↔ b ∈ w.dirty
  added : ∀ b ∈ range, b ∈ v.added ↔ b ∈ w.added
  stamp : ∀ b ∈ range, v.stamp b = w.stamp b

namespace AgreeOn

variable {range smaller : Set Nat} {v w : ByteState} {m : Metadata}

/-- States that agree on a range agree on every part of it. -/
theorem mono (agree : AgreeOn range v w) (inside : smaller ⊆ range) : AgreeOn smaller v w :=
  ⟨fun b member => agree.excluded b (inside member), fun b member => agree.dirty b (inside member),
    fun b member => agree.added b (inside member), fun b member => agree.stamp b (inside member)⟩

/-- Two agreements on one range make a third. -/
theorem trans {u : ByteState} (first : AgreeOn range u v) (second : AgreeOn range v w) :
    AgreeOn range u w :=
  ⟨fun b member => (first.excluded b member).trans (second.excluded b member),
    fun b member => (first.dirty b member).trans (second.dirty b member),
    fun b member => (first.added b member).trans (second.added b member),
    fun b member => (first.stamp b member).trans (second.stamp b member)⟩

/-- A record that reads these bytes only takes effect in both states or in neither. -/
theorem effective_iff (agree : AgreeOn m.bytes v w) : v.Effective m ↔ w.Effective m :=
  and_congr_right fun _ => disjoint_congr agree.excluded

/-- Which bytes a record touches is decided by the exclusions on its own range. -/
theorem touches_iff (agree : AgreeOn m.bytes v w) (type : MetadataType) (b : Nat) :
    v.Touches type m b ↔ w.Touches type m b :=
  and_congr_right fun _ => and_congr_right fun _ => disjoint_congr agree.excluded

/-- States that agree on a range print the same reports for a record that reads inside
of it, if the depths do not differ in what is asked of them. Each check reads the state
of the bytes of its record alone, and the end of a transaction those of the waiting
assigns. -/
theorem reports (agree : AgreeOn range v w) (reads : m.reads ⊆ range) (warn : Bool)
    {pending : List Metadata} (within : ∀ n ∈ pending, n.bytes ⊆ range)
    (inside : 0 < v.depth ↔ 0 < w.depth)
    (ends : m.type = .transactionEnd → (v.depth - 1 = 0 ↔ w.depth - 1 = 0)) :
    v.reports warn m pending = w.reports warn m pending := by
  classical
  unfold ByteState.reports
  unfold Metadata.reads at reads
  cases type : m.type with
  | assign =>
    rw [type] at reads
    have own := agree.mono reads
    refine if_congr (and_congr own.effective_iff (and_congr inside ?_)) rfl rfl
    exact disjoint_congr own.added
  | flush =>
    rw [type] at reads
    have own := agree.mono reads
    refine if_congr (and_congr_right fun _ => and_congr own.effective_iff ?_) rfl rfl
    exact disjoint_congr own.dirty
  | persist =>
    rw [type] at reads
    have own := agree.mono reads
    exact persistReports_congr (disjoint_congr own.excluded) own.dirty
  | order =>
    rw [type] at reads
    have early := agree.mono (Set.subset_union_left.trans reads)
    have late := agree.mono (Set.subset_union_right.trans reads)
    exact orderReports_congr (disjoint_congr early.excluded) (disjoint_congr late.excluded)
      early.stamp late.stamp
  | transactionEnd =>
    refine if_congr (ends type) ?_ rfl
    rw [List.flatMap_def, List.flatMap_def]
    refine congrArg _ (List.map_congr_left fun n member => ?_)
    have own := agree.mono (within n member)
    exact persistReports_congr (disjoint_congr own.excluded) own.dirty
  | transactionAdd =>
    rw [type] at reads
    have own := agree.mono reads
    refine if_congr (and_congr_right fun _ => and_congr (and_congr_left fun _ => inside) ?_) rfl rfl
    exact not_congr (disjoint_congr own.added)
  | _ => rfl

/-- An operation on bytes of the range touches the same bytes; other records touch none. -/
theorem touches_of_reads (agree : AgreeOn range v w) (reads : m.reads ⊆ range) {type : MetadataType}
    (operation : type = .assign ∨ type = .flush) (b : Nat) :
    v.Touches type m b ↔ w.Touches type m b := by
  by_cases same : m.type = type
  · have own : m.bytes ⊆ range := by
      unfold Metadata.reads at reads
      rcases operation with rfl | rfl <;> rwa [same] at reads
    exact (agree.mono own).touches_iff type b
  · exact iff_of_false (fun touches => same touches.1) fun touches => same touches.1

/-- Behind the record the states still agree on the range, which it may have changed in
both in the same way. -/
theorem after (agree : AgreeOn range v w) (reads : m.reads ⊆ range) (time : v.time = w.time)
    (inside : 0 < v.depth ↔ 0 < w.depth) : AgreeOn range (v.after m) (w.after m) := by
  have assign := agree.touches_of_reads reads (.inl rfl)
  have flush := agree.touches_of_reads reads (.inr rfl)
  constructor
  · intro b member
    rw [after_excluded, after_excluded, excludeStep, excludeStep]
    split
    · exact or_congr_left (agree.excluded b member)
    · exact and_congr_left fun _ => agree.excluded b member
    · exact agree.excluded b member
  · intro b member
    rw [mem_after_dirty, mem_after_dirty, assign, flush, agree.dirty b member]
  · intro b member
    rw [mem_after_added, mem_after_added, inside, agree.added b member]
  · intro b member
    classical
    rw [after_stamp, after_stamp, time, agree.stamp b member]
    exact if_congr (assign b) rfl (if_congr (flush b) rfl rfl)

/-- A record changes nothing outside the bytes it may change. A byte of the range is
then neither touched nor excluded, included or added by it. -/
theorem of_writes (v : ByteState) {m : Metadata} (apart : Disjoint m.writes range) :
    AgreeOn range (v.after m) v := by
  have outside {b : Nat} (member : b ∈ range) (marks : m.type = .assign ∨ m.type = .flush ∨
      m.type = .transactionAdd ∨ m.type = .exclude ∨ m.type = .reinclude) : b ∉ m.bytes :=
    fun inside => Set.disjoint_left.mp apart (Metadata.mem_writes inside marks) member
  have unassigned {b : Nat} (member : b ∈ range) : ¬ v.Touches .assign m b :=
    fun touches => outside member (.inl touches.1) touches.2.1
  have unflushed {b : Nat} (member : b ∈ range) : ¬ v.Touches .flush m b :=
    fun touches => outside member (.inr (.inl touches.1)) touches.2.1
  constructor
  · intro b member
    rw [after_excluded, excludeStep]
    split
    · have absent := outside member (by simp [*])
      exact or_iff_left absent
    · have absent := outside member (by simp [*])
      exact and_iff_left absent
    · rfl
  · intro b member
    rw [mem_after_dirty]
    simp [unassigned member, unflushed member]
  · intro b member
    rw [mem_after_added]
    refine or_iff_left ?_
    rintro ⟨added, inside, _⟩
    exact outside member (.inr (.inr (.inl added))) inside
  · intro b member
    rw [after_stamp, if_neg (unassigned member), if_neg (unflushed member)]

/-- States that agree on a range have the same assigns to check behind a record that
reads inside of it: whether an assign waits for the end depends on its range and on
being inside a transaction. -/
theorem pendingStep (agree : AgreeOn range v w) (reads : m.reads ⊆ range)
    (pending : List Metadata) (inside : 0 < v.depth ↔ 0 < w.depth)
    (begins : m.type = .transactionBegin → (v.depth = 0 ↔ w.depth = 0)) :
    v.pendingStep m pending = w.pendingStep m pending := by
  classical
  unfold ByteState.pendingStep
  unfold Metadata.reads at reads
  cases type : m.type with
  | assign =>
    rw [type] at reads
    exact if_congr (and_congr (agree.mono reads).effective_iff inside) rfl rfl
  | transactionBegin => exact if_congr (begins type) rfl rfl
  | _ => rfl

end AgreeOn

/-- The assigns to check behind a record are old ones or the record. -/
theorem mem_pendingStep {v : ByteState} {m n : Metadata} {pending : List Metadata}
    (member : n ∈ v.pendingStep m pending) : n ∈ pending ∨ (n = m ∧ m.type = .assign) := by
  unfold pendingStep at member
  cases type : m.type with
  | assign =>
    simp only [type] at member
    split_ifs at member
    · rcases List.mem_append.mp member with old | new
      · exact .inl old
      · exact .inr ⟨List.mem_singleton.mp new, rfl⟩
    · exact .inl member
  | transactionBegin =>
    simp only [type] at member
    split_ifs at member
    · exact absurd member List.not_mem_nil
    · exact .inl member
  | _ =>
    simp only [type] at member
    exact .inl member

section Renumber

variable {number : Nat → Nat} {v : ByteState} {m : Metadata}

/-- A renumbering of the sections commutes with a record, if it is a successor wherever
a fence counts. -/
theorem after_renumber (counts : m.type = .fence → number (v.time + 1) = number v.time + 1) :
    (v.renumber number).after m = (v.after m).renumber number := by
  rw [after, after, next_renumber counts]
  rfl

/-- Other section numbers in the same order change no report on small times. Order
queries compare the numbers and read nothing else of them. -/
theorem reports_renumber (mono : StrictMono number) (small : v.Small)
    (renumbered : (v.renumber number).Small) (warn : Bool) (pending : List Metadata) :
    (v.renumber number).reports warn m pending = v.reports warn m pending := by
  unfold reports
  cases m.type with
  | order => exact orderReports_renumber mono small renumbered m
  | _ => rfl

end Renumber

end ByteState

section Counting

/-- The number of fences among the records. -/
def fencesAmong (records : List Metadata) : Nat := records.countP fun m => m.type = .fence

/-- The record in front counts if it is a fence. -/
theorem fencesAmong_cons (m : Metadata) (rest : List Metadata) :
    fencesAmong (m :: rest) = fencesAmong rest + if m.type = .fence then 1 else 0 := by
  simp [fencesAmong, List.countP_cons]

/-- The fences of two parts of a trace add up. -/
theorem fencesAmong_append (first second : List Metadata) :
    fencesAmong (first ++ second) = fencesAmong first + fencesAmong second :=
  List.countP_append

/-- A fence is found among the records exactly when at least one is counted. -/
theorem fenceAmong_iff (records : List Metadata) :
    fenceAmong records = true ↔ 0 < fencesAmong records := by
  simp [fenceAmong, fencesAmong, List.countP_pos_iff]

/-- With the fences still to come, the sections stay within the number of fences, and
the exact times do not exceed it. -/
structure Timely (fences : Nat) (rest : List Metadata) (v : ByteState) : Prop where
  budget : v.time + fencesAmong rest ≤ fences + 1
  exact_le : ∀ b time, v.stamp b = some (.exactly time) → time ≤ fences

namespace Timely

variable {fences : Nat} {rest : List Metadata} {m : Metadata} {v : ByteState}

/-- At the start the budget is the number of all fences, and no byte has a stamp. -/
theorem initial (records : List Metadata) : Timely (fencesAmong records) records .initial := by
  refine ⟨?_, fun b time found => ?_⟩
  · rw [show ByteState.initial.time = 1 from rfl, Nat.add_comm]
  · simp [ByteState.initial] at found

/-- A record that is not skipped keeps the bounds. A flush stamps its bytes with the
current section, and as some fence is still to come the number of fences is not
reached yet. -/
theorem after (timely : Timely fences (m :: rest) v)
    (counted : ¬ (m.type = .flush ∧ fenceAmong rest = false)) : Timely fences rest (v.after m) := by
  obtain ⟨budget, exact_le⟩ := timely
  rw [fencesAmong_cons] at budget
  constructor
  · rw [ByteState.after_time]
    split_ifs at budget ⊢ <;> omega
  · intro b time found
    rw [ByteState.after_stamp] at found
    split_ifs at found with assigned flushed
    · simp at found
    · have fenced : fenceAmong rest = true := by
        by_contra unfenced
        exact counted ⟨flushed.1, Bool.eq_false_iff.mpr unfenced⟩
      have remaining := (fenceAmong_iff rest).mp fenced
      simp only [Option.some.injEq, Stamp.exactly.injEq] at found
      omega
    · exact exact_le b time found

/-- A record that is skipped uses up nothing of the budget. -/
theorem skip (timely : Timely fences (m :: rest) v) : Timely fences rest v := by
  refine ⟨?_, timely.exact_le⟩
  have budget := timely.budget
  rw [fencesAmong_cons] at budget
  omega

/-- The exact times are small if there are few fences, so comparisons of the stored
integers do not overflow. -/
theorem small (timely : Timely fences rest v) (few : (fences : Int) < intMax) : v.Small := by
  intro b time found
  have bounded := timely.exact_le b time found
  omega

end Timely

end Counting

section Fronts

variable (warn : Bool)

/-- Every flush is followed by a fence. -/
def FlushesFenced : List Metadata → Prop
  | [] => True
  | m :: rest => (m.type = .flush → fenceAmong rest = true) ∧ FlushesFenced rest

instance FlushesFenced.decidable : ∀ records : List Metadata, Decidable (FlushesFenced records)
  | [] => inferInstanceAs (Decidable True)
  | m :: rest =>
      have := FlushesFenced.decidable rest
      inferInstanceAs (Decidable ((m.type = .flush → fenceAmong rest = true) ∧ FlushesFenced rest))

/-- A fence of two parts of a trace is in one of them. -/
theorem fenceAmong_append (first second : List Metadata) :
    fenceAmong (first ++ second) = (fenceAmong first || fenceAmong second) :=
  List.any_append

/-- A settled part of a trace does not notice what comes later. What comes later is only
asked for a fence, by flushes that have none inside the part. -/
theorem flushesFenced_front {front : List Metadata} (settled : FlushesFenced front)
    (later later' : List Metadata) (k : RecordState) :
    run (RecordState.machine warn) later front k = run (RecordState.machine warn) later' front k ∧
      output (RecordState.machine warn) later front k =
        output (RecordState.machine warn) later' front k := by
  induction front generalizing k with
  | nil => exact ⟨rfl, rfl⟩
  | cons m rest ih =>
    obtain ⟨fenced, settled⟩ := settled
    have same : RecordState.machine warn (rest ++ later) m k =
        RecordState.machine warn (rest ++ later') m k := by
      refine RecordState.machine_congr warn m k fun flush => ?_
      rw [fenceAmong_append, fenceAmong_append, fenced flush, Bool.true_or, Bool.true_or]
    obtain ⟨final, printed⟩ := ih settled (RecordState.machine warn (rest ++ later') m k).1
    simp only [run, output, same]
    exact ⟨final, congrArg _ printed⟩

/-- What one record does to the section and the depth, skipped or not. -/
theorem machine_counters (later : List Metadata) (m : Metadata) (k : RecordState) :
    (RecordState.machine warn later m k).1.bytes.time =
        k.bytes.time + (if m.type = .fence then 1 else 0) ∧
      (RecordState.machine warn later m k).1.bytes.depth = depthStep k.bytes.depth m := by
  unfold RecordState.machine
  split_ifs with skipped fence fence
  · exact absurd (skipped.1.symm.trans fence) (by decide)
  · exact ⟨rfl, by rw [depthStep, skipped.1]⟩
  · exact ⟨if_pos fence, rfl⟩
  · exact ⟨if_neg fence, rfl⟩

/-- The section and the depth behind some records, by induction on the records: every
fence counts, and every begin and end of a transaction. -/
theorem run_counters (later records : List Metadata) (k : RecordState) :
    (run (RecordState.machine warn) later records k).bytes.time =
        k.bytes.time + fencesAmong records ∧
      (run (RecordState.machine warn) later records k).bytes.depth =
        records.foldl depthStep k.bytes.depth := by
  induction records generalizing k with
  | nil => exact ⟨rfl, rfl⟩
  | cons m rest ih =>
    obtain ⟨time, depth⟩ := machine_counters warn (rest ++ later) m k
    obtain ⟨later_time, later_depth⟩ := ih (RecordState.machine warn (rest ++ later) m k).1
    refine ⟨?_, ?_⟩
    · rw [run, later_time, time, fencesAmong_cons]
      omega
    · rw [run, later_depth, depth, List.foldl_cons]

end Fronts

end PMTest
