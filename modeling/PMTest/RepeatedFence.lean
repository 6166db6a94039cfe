import Mathlib.Order.Monotone.Defs
import PMTest.Placement
import PMTest.History
import PMTest.Segments

/-!
# A repeated fence

A second fence directly behind a fence closes an empty section. Every later section
gets a number one higher, and every earlier one keeps its number. The two runs are
the same up to this renumbering, which is strictly monotone.

An order query compares the numbers of two sections with each other, which the
renumbering does not affect. It also compares an exact time with the largest
integer, so it has to be known that neither run comes that far. A flush counts only
if some fence follows it, so its section is no higher than the number of fences.
-/

namespace PMTest

open Lookahead

namespace Stamp

/-- The stamp with another number for its section. -/
def renumber (number : Nat → Nat) : Stamp → Stamp
  | atLeast time => atLeast (number time)
  | exactly time => exactly (number time)

/-- The renumbered stamp is of the renumbered section. -/
@[simp] theorem time_renumber (number : Nat → Nat) (stamp : Stamp) :
    (stamp.renumber number).time = number stamp.time := by
  cases stamp <;> rfl

end Stamp

namespace ByteState

/-- The state with other numbers for the sections. -/
def renumber (number : Nat → Nat) (v : ByteState) : ByteState :=
  { v with
    stamp := fun b => (v.stamp b).map (Stamp.renumber number)
    time := number v.time }

variable {number : Nat → Nat} {v : ByteState} {memory : Ptr → Metadata} {cur : Ptr}

/-- A record acts on the renumbered state as on the state, if a fence goes to the next
number. All components but the stamps and the time are the same, and a stamp that the
record sets is that of the current section. -/
theorem next_renumber
    (counts : (memory cur).type = .fence → number (v.time + 1) = number v.time + 1) :
    (v.renumber number).next memory cur = (v.next memory cur).renumber number := by
  classical
  apply ByteState.ext
  · rfl
  · rfl
  · rfl
  · funext b
    have touches (type : MetadataType) : (v.renumber number).Touches type (memory cur) b ↔
        v.Touches type (memory cur) b := Iff.rfl
    change (next memory cur (v.renumber number)).stamp b =
      ((v.next memory cur).stamp b).map (Stamp.renumber number)
    simp only [next, touches]
    by_cases assigned : v.Touches .assign (memory cur) b
    · simp [assigned, renumber, Stamp.renumber]
    · by_cases flushed : v.Touches .flush (memory cur) b
      · simp [assigned, flushed, renumber, Stamp.renumber]
      · simp [assigned, flushed, renumber]
  · rfl
  · simp only [next, renumber]
    split_ifs with fence
    · exact (counts fence).symm
    · rfl
  · rfl

/-- No exact time of the state reaches the largest integer. -/
def Small (v : ByteState) : Prop :=
  ∀ b time, v.stamp b = some (.exactly time) → (time : Int) < intMax

/-- For small times the comparison of an order query is one between stamps. -/
theorem unordered_iff_of_small (small : v.Small) (m : Metadata) :
    v.Unordered m ↔ (∃ e ∈ m.bytes, ∃ time, v.stamp e = some (.atLeast time)) ∨
      ∃ e ∈ m.bytes, ∃ l ∈ m.bytesLate, ∃ early late, v.stamp e = some early ∧
        v.stamp l = some late ∧ late.time ≤ early.time := by
  constructor
  · rintro (inexact | unordered | ⟨e, inside, stamp, found, huge⟩)
    · exact .inl inexact
    · exact .inr unordered
    · cases stamp with
      | atLeast time => exact .inl ⟨e, inside, time, found⟩
      | exactly time => exact absurd huge (not_le.mpr (small e time found))
  · rintro (inexact | unordered)
    · exact .inl inexact
    · exact .inr (.inl unordered)

/-- A strictly monotone renumbering changes no verdict on small times. The query asks
which bytes have stamps, of which kind these are, and how their times compare; the
renumbering keeps all of it. -/
theorem orderReports_renumber (mono : StrictMono number) (small : v.Small)
    (renumbered : (v.renumber number).Small) (m : Metadata) :
    (v.renumber number).orderReports m = v.orderReports m := by
  classical
  have queried : (v.renumber number).Queried m ↔ v.Queried m := Iff.rfl
  have stamped : (v.renumber number).Stamped m ↔ v.Stamped m := by
    simp only [Stamped, renumber, Option.isSome_map]
  have unordered : (v.renumber number).Unordered m ↔ v.Unordered m := by
    rw [unordered_iff_of_small small, unordered_iff_of_small renumbered]
    refine or_congr ?_ ?_
    · refine exists_congr fun e => and_congr_right fun _ => ?_
      cases found : v.stamp e with
      | none => simp [renumber, found]
      | some stamp => cases stamp <;> simp [renumber, found, Stamp.renumber]
    · refine exists_congr fun e => and_congr_right fun _ => exists_congr fun l =>
        and_congr_right fun _ => ?_
      simp only [renumber]
      cases v.stamp e with
      | none => simp
      | some early =>
        cases v.stamp l with
        | none => simp
        | some late => simp [mono.le_iff_le]
  rw [orderReports, orderReports]
  exact if_congr queried (if_congr stamped (if_congr unordered rfl rfl) rfl) rfl

/-- A strictly monotone renumbering changes no line on small times. -/
theorem lines_renumber (mono : StrictMono number) (small : v.Small)
    (renumbered : (v.renumber number).Small) (warn : Bool) :
    (v.renumber number).lines warn memory cur = v.lines warn memory cur := by
  unfold lines
  cases (memory cur).type with
  | order => exact congrArg _ (orderReports_renumber mono small renumbered _)
  | _ => rfl

end ByteState

/-- Every number behind the given one moves up by one. -/
def delay (closed time : Nat) : Nat := if time ≤ closed then time else time + 1

/-- Moving up the later numbers keeps the order. -/
theorem delay_strictMono (closed : Nat) : StrictMono (delay closed) := by
  intro first second order
  unfold delay
  split_ifs <;> omega

/-- The number of fences in a list of addresses. -/
def fencesIn (memory : Ptr → Metadata) (items : List Ptr) : Nat :=
  items.countP fun p => (memory p).type = .fence

/-- A fence is found exactly when there is at least one. -/
theorem hasFence_iff_fencesIn (memory : Ptr → Metadata) (items : List Ptr) :
    hasFence memory items = true ↔ 0 < fencesIn memory items := by
  simp [hasFence, fencesIn, List.countP_pos_iff]

/-- The runs with and without the second fence, behind it: the sections of the
longer one are delayed. With the fences still to come, the sections stay within
the number of fences, and the exact times do not exceed it. -/
structure Delayed (memory : Ptr → Metadata) (fences closed : Nat) (rest : List Ptr)
    (v w : ByteState) : Prop where
  renumbered : w = v.renumber (delay closed)
  later : closed < v.time
  budget : v.time + fencesIn memory rest ≤ fences + 1
  exact_le : ∀ b time, v.stamp b = some (.exactly time) → time ≤ fences

section Run

variable {memory : Ptr → Metadata} {fences closed : Nat} {rest : List Ptr} {v w : ByteState}

/-- Below the largest integer by two, the exact times of both runs are small. -/
theorem Delayed.small (delayed : Delayed memory fences closed rest v w)
    (few : (fences : Int) < intMax - 1) : v.Small ∧ (v.renumber (delay closed)).Small := by
  constructor
  · intro b time found
    have bounded := delayed.exact_le b time found
    omega
  · intro b time found
    obtain ⟨stamp, original, same⟩ := Option.map_eq_some_iff.mp found
    cases stamp with
    | atLeast _ => simp [Stamp.renumber] at same
    | exactly early =>
      simp only [Stamp.renumber, Stamp.exactly.injEq] at same
      have bounded := delayed.exact_le b early original
      unfold delay at same
      split_ifs at same <;> omega

/-- A record that is not skipped keeps the delay. A flush stamps its bytes with the
current section, and as some fence is still to come the number of fences is not
reached yet. -/
theorem Delayed.next {cur : Ptr} (delayed : Delayed memory fences closed (cur :: rest) v w)
    (counted : ¬ ((memory cur).type = .flush ∧ hasFence memory rest = false)) :
    Delayed memory fences closed rest (v.next memory cur) (w.next memory cur) := by
  obtain ⟨rfl, later, budget, exact_le⟩ := delayed
  have tally : fencesIn memory (cur :: rest) =
      fencesIn memory rest + if (memory cur).type = .fence then 1 else 0 := by
    simp [fencesIn, List.countP_cons]
  rw [tally] at budget
  refine ⟨ByteState.next_renumber fun _ => ?_, ?_, ?_, ?_⟩
  · unfold delay
    split_ifs <;> omega
  · simp only [ByteState.next]
    split_ifs <;> omega
  · simp only [ByteState.next]
    split_ifs at budget ⊢ <;> omega
  · intro b time found
    simp only [ByteState.next] at found
    split_ifs at found with assigned flushed
    · simp at found
    · have fenced : hasFence memory rest = true := by
        by_contra unfenced
        exact counted ⟨flushed.1, Bool.eq_false_iff.mpr unfenced⟩
      have remaining := (hasFence_iff_fencesIn memory rest).mp fenced
      simp only [Option.some.injEq, Stamp.exactly.injEq] at found
      omega
    · exact exact_le b time found

/-- One step keeps the delay and prints the same lines. -/
theorem Delayed.step (few : (fences : Int) < intMax - 1) (warn : Bool) {cur : Ptr}
    (delayed : Delayed memory fences closed (cur :: rest) v w) :
    Delayed memory fences closed rest (ByteState.machine warn memory rest cur v).1
        (ByteState.machine warn memory rest cur w).1 ∧
      (ByteState.machine warn memory rest cur v).2 =
        (ByteState.machine warn memory rest cur w).2 := by
  unfold ByteState.machine
  split_ifs with skipped
  · obtain ⟨renumbered, later, budget, exact_le⟩ := delayed
    have fewer : fencesIn memory rest ≤ fencesIn memory (cur :: rest) :=
      (List.sublist_cons_self cur rest).countP_le
    exact ⟨⟨renumbered, later, (Nat.add_le_add_left fewer v.time).trans budget, exact_le⟩, rfl⟩
  · refine ⟨delayed.next skipped, ?_⟩
    obtain ⟨small, smallToo⟩ := delayed.small few
    rw [delayed.renumbered]
    exact (ByteState.lines_renumber (delay_strictMono closed) small smallToo warn).symm

/-- The passes over the records behind the second fence print the same lines and end at
the same depth. The induction is on these records. -/
theorem Delayed.pass (few : (fences : Int) < intMax - 1) (warn : Bool)
    (delayed : Delayed memory fences closed rest v w) :
    (run (ByteState.machine warn memory) [] rest v).depth =
        (run (ByteState.machine warn memory) [] rest w).depth ∧
      output (ByteState.machine warn memory) [] rest v =
        output (ByteState.machine warn memory) [] rest w := by
  obtain ⟨final, printed⟩ := simulate_pass (ByteState.machine warn memory)
    (ByteState.machine warn memory) Eq (Delayed memory fences closed) concatenates_eq [] []
    (by
      rintro x rest y rest' v w rfl pairs delayed
      obtain rfl : rest = rest' := by rwa [List.forall₂_eq_eq_eq] at pairs
      simpa only [List.append_nil] using delayed.step few warn)
    (List.forall₂_eq_eq_eq ▸ rfl) v w delayed
  exact ⟨by rw [final.renumbered]; rfl, printed⟩

end Run

section Repeat

variable (icl : Icl) (warn : Bool)

/-- A fence goes to the next section, changes nothing else and prints nothing. -/
theorem machine_fence {memory : Ptr → Metadata} {cur : Ptr} (fence : (memory cur).type = .fence)
    (later : List Ptr) (v : ByteState) :
    ByteState.machine warn memory later cur v = ({ v with time := v.time + 1 }, []) := by
  have counted : ¬ ((memory cur).type = .flush ∧ hasFence memory later = false) := by
    simp [fence]
  rw [ByteState.machine, if_neg counted,
    v.next_quiet memory cur (by simp [fence]) (by simp [fence])]
  simp [ByteState.lines, fence, excludeStep, depthStep]

/-- If no stamp is later than the current section, a delay of the sections behind it
moves the number of the next section and no stamp. -/
theorem renumber_delay_of_le {v : ByteState}
    (reached : ∀ b stamp, v.stamp b = some stamp → stamp.time ≤ v.time) :
    ({ v with time := v.time + 1 } : ByteState).renumber (delay v.time) =
      { v with time := v.time + 2 } := by
  have kept (b : Nat) : (v.stamp b).map (Stamp.renumber (delay v.time)) = v.stamp b := by
    cases found : v.stamp b with
    | none => rfl
    | some stamp =>
      have early := reached b stamp found
      cases stamp with
      | atLeast time => simp [Stamp.renumber, delay, if_pos (show time ≤ v.time from early)]
      | exactly time => simp [Stamp.renumber, delay, if_pos (show time ≤ v.time from early)]
  have moved : delay v.time (v.time + 1) = v.time + 2 := by simp [delay]
  simp only [ByteState.renumber, kept, moved]

/-- Behind a fence every stamp is of an earlier section, so a second fence delays the
sections from there on. The budget of fences is counted from the front of the trace: the
section of a position is the number of fences in front of it, and one. -/
theorem delayed_behind_fence {t : Trace} {front after : List Ptr} {p : Ptr}
    (split : t.veriptr = front ++ p :: after) (fence : (t.memory p).type = .fence) :
    Delayed t.memory (fencesIn t.memory t.veriptr) (t.before warn front.length).time after
      { t.before warn front.length with time := (t.before warn front.length).time + 1 }
      { t.before warn front.length with time := (t.before warn front.length).time + 2 } := by
  have bound : front.length ≤ t.veriptr.length := by
    rw [split]
    simp
  have summary := summarises_before t warn front.length bound
  have reached (b : Nat) (stamp : Stamp)
      (found : (t.before warn front.length).stamp b = some stamp) :
      stamp.time ≤ (t.before warn front.length).time := by
    rw [summary.time]
    exact ((summary.stamp b stamp).mp found).time_le
  have counted : (t.before warn front.length).time = 1 + fencesIn t.memory front := by
    rw [summary.time, sectionAt, fencesBefore, Trace.records, split, ← List.map_take,
      List.take_left, List.countP_map]
    rfl
  have total : fencesIn t.memory t.veriptr =
      fencesIn t.memory front + 1 + fencesIn t.memory after := by
    rw [split]
    simp only [fencesIn, List.countP_append, List.countP_cons, fence, decide_true, if_true]
    omega
  refine ⟨?_, Nat.lt_succ_self _, ?_, ?_⟩
  · exact (renumber_delay_of_le reached).symm
  · simp only
    omega
  · intro b time found
    have before := reached b _ found
    simp only [Stamp.time] at before
    omega

/-- The passes with and without the second fence print the same lines and end at the
same depth. In front of the fences they are the same, since either way a fence is
found ahead. -/
theorem repeat_passes {t : Trace} {front after : List Ptr} {p q : Ptr}
    (split : t.veriptr = front ++ p :: after) (fence : (t.memory p).type = .fence)
    (again : (t.memory q).type = .fence)
    (few : ((fencesIn t.memory t.veriptr : Nat) : Int) < intMax - 1) :
    (run (ByteState.machine warn t.memory) [] (front ++ ([p] ++ after)) .initial).depth =
        (run (ByteState.machine warn t.memory) [] (front ++ ([p, q] ++ after)) .initial).depth ∧
      output (ByteState.machine warn t.memory) [] (front ++ ([p] ++ after)) .initial =
        output (ByteState.machine warn t.memory) [] (front ++ ([p, q] ++ after)) .initial := by
  have fences (before : List Ptr) : hasFence t.memory (before ++ ([p] ++ after)) =
      hasFence t.memory (before ++ ([p, q] ++ after)) := by
    simp [hasFence, fence]
  obtain ⟨reached, printed⟩ := front_agrees warn fences front
  have middle : run (ByteState.machine warn t.memory) ([p] ++ after) front .initial =
      t.before warn front.length := by
    rw [Trace.before, stateAt, split, List.drop_left, List.take_left]
    rfl
  obtain ⟨depth, rest⟩ := (delayed_behind_fence warn split fence).pass few warn
  simp only [run_append, output_append, List.append_nil, ← reached, ← printed, middle]
  simp only [run, output, machine_fence warn fence, machine_fence warn again, List.nil_append]
  exact ⟨depth, congrArg _ rest⟩

/-- One more fence directly behind a fence changes neither the reports nor the message
about unmatched transactions.

The two traces may have their records at different addresses, which do not matter. So
the longer trace is compared with a trace that leaves out its second fence, and there
the two passes are run side by side. -/
theorem repeated_fence_harmless (t u : Trace) (front rest : List Metadata) (m n : Metadata)
    (recorded : t.records = front ++ m :: rest) (inserted : u.records = front ++ m :: n :: rest)
    (fence : m.type = .fence) (again : n.type = .fence)
    (few : ((t.records.countP fun m => m.type = .fence : Nat) : Int) < intMax - 1) :
    t.reports icl warn = u.reports icl warn ∧
      (veriProc icl warn t.memory t.veriptr).transactionEndError =
        (veriProc icl warn u.memory u.veriptr).transactionEndError := by
  obtain ⟨before, others, split, rfl, tail⟩ := List.map_eq_append_iff.mp inserted
  obtain ⟨p, _, rfl, rfl, next⟩ := List.map_eq_cons_iff.mp tail
  obtain ⟨q, after, rfl, rfl, rfl⟩ := List.map_eq_cons_iff.mp next
  -- the shorter list of records at the addresses of the longer trace
  let shorter : Trace :=
    { memory := u.memory
      veriptr := before ++ p :: after
      distinct := by
        have part : (before ++ p :: after).Sublist u.veriptr := by
          rw [split]
          exact ((List.sublist_cons_self q after).cons_cons p).append_left before
        exact part.nodup u.distinct }
  have records : t.records = shorter.records := by
    rw [recorded]
    simp [shorter, Trace.records]
  have fewer : ((fencesIn shorter.memory shorter.veriptr : Nat) : Int) < intMax - 1 := by
    rw [records, Trace.records, List.countP_map] at few
    exact few
  obtain ⟨reports, unmatched⟩ := reports_eq_of_records icl warn records
  obtain ⟨depth, lines⟩ := repeat_passes warn (t := shorter) rfl fence again fewer
  constructor
  · rw [reports, shorter.reports_eq, u.reports_eq, split]
    exact congrArg (List.map Line.report) lines
  · rw [unmatched, transactionEndError_eq_run, transactionEndError_eq_run, split]
    exact congrArg (fun depth : Int => decide (0 < depth)) depth

/-- A write that is flushed and fenced before the next one. -/
def fencedOnce : Trace := .ofRecords
  [{ type := .assign, addr := 0, size := 4 }, { type := .flush, addr := 0, size := 4 },
    { type := .fence }, { type := .assign, addr := 8, size := 4 },
    { type := .order, addr := 0, size := 4, addrLate := 8, sizeLate := 4 },
    { type := .order, addr := 8, size := 4, addrLate := 0, sizeLate := 4 }]

/-- The records of `fencedOnce` with two fences between the writes. -/
def fencedTwice : Trace := .ofRecords
  [{ type := .assign, addr := 0, size := 4 }, { type := .flush, addr := 0, size := 4 },
    { type := .fence }, { type := .fence }, { type := .assign, addr := 8, size := 4 },
    { type := .order, addr := 0, size := 4, addrLate := 8, sizeLate := 4 },
    { type := .order, addr := 8, size := 4, addrLate := 0, sizeLate := 4 }]

/-- The query in the wrong order is reported in both traces, and nothing else. -/
theorem repeated_fence_harmless_fenced_twice :
    (fencedOnce.reports (Segments.segments Nat Int) false).length = 1 ∧
    fencedOnce.reports (Segments.segments Nat Int) false =
      fencedTwice.reports (Segments.segments Nat Int) false :=
  ⟨by decide, (repeated_fence_harmless (Segments.segments Nat Int) false fencedOnce fencedTwice
    [{ type := .assign, addr := 0, size := 4 }, { type := .flush, addr := 0, size := 4 }]
    _ _ _ rfl rfl rfl rfl (by decide)).1⟩

end Repeat

end PMTest
