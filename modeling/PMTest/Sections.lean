import PMTest.Agreement
import PMTest.Segments

/-!
# Checking a program section by section

The tested program may cut its trace into sections that are checked on their own, by
different threads. If every section but the last is self-contained, that is, all its
flushes are fenced and all its transactions are closed, and no section reads a byte
that an earlier one has marked, then checking the sections one by one prints exactly
what checking the whole trace prints.

Behind a self-contained section the checker is in its initial state again as far as
the later sections can see, except that the sections of time have higher numbers.
-/

namespace PMTest

open Lookahead

/-- The bytes whose state some of the records may change. -/
def footprint (records : List Metadata) : Set Nat := { b | ∃ m ∈ records, b ∈ m.writes }

/-- All flushes are fenced, and as many transactions end as begin. -/
structure SelfContained (records : List Metadata) : Prop where
  settled : FlushesFenced records
  closed : records.foldl depthStep 0 = 0

/-- No record reads the state of a byte that the other records have marked. -/
def Apart (first second : List Metadata) : Prop :=
  ∀ m ∈ second, Disjoint m.reads (footprint first)

/-- A pass changes nothing outside of the footprint of its records, by induction on
them. -/
theorem run_frame (warn : Bool) (later records : List Metadata) (k : RecordState) :
    (run (RecordState.machine warn) later records k).bytes.AgreeOn (footprint records)ᶜ
      k.bytes := by
  induction records generalizing k with
  | nil => exact ⟨fun _ _ => Iff.rfl, fun _ _ => Iff.rfl, fun _ _ => Iff.rfl, fun _ _ => rfl⟩
  | cons m rest ih =>
    have grows : (footprint (m :: rest))ᶜ ⊆ (footprint rest)ᶜ := by
      rintro b outside ⟨n, member, inside⟩
      exact outside ⟨n, List.mem_cons_of_mem m member, inside⟩
    have others := (ih (RecordState.machine warn (rest ++ later) m k).1).mono grows
    refine others.trans ?_
    unfold RecordState.machine
    split_ifs
    · exact ⟨fun _ _ => Iff.rfl, fun _ _ => Iff.rfl, fun _ _ => Iff.rfl, fun _ _ => rfl⟩
    · apply ByteState.AgreeOn.of_writes
      rw [Set.disjoint_compl_right_iff_subset]
      exact fun b inside => ⟨m, List.mem_cons_self, inside⟩

/-- The pass over a section of a trace against the pass over this section alone: they
know the same about the bytes outside of the earlier footprint, with other numbers for
the sections of time. Assigns from earlier sections are never checked again. -/
structure Continues (marked : Set Nat) (shift fences : Nat) (rest : List Metadata)
    (k l : RecordState) : Prop where
  agree : k.bytes.AgreeOn markedᶜ (l.bytes.renumber (· + shift))
  time : k.bytes.time = l.bytes.time + shift
  depth : k.bytes.depth = l.bytes.depth
  pending : 0 < l.bytes.depth → k.pending = l.pending
  within : ∀ m ∈ l.pending, m.bytes ⊆ markedᶜ
  timely : Timely fences rest l.bytes

namespace Continues

variable {marked : Set Nat} {shift fences : Nat} {rest : List Metadata} {k l : RecordState}
  {m : Metadata}

/-- Moving all sections of time by the same number keeps their order. -/
theorem shift_strictMono (shift : Nat) : StrictMono fun time : Nat => time + shift :=
  fun _ _ order => Nat.add_lt_add_right order shift

/-- Few enough fences keep all exact times small. -/
theorem small (continues : Continues marked shift fences rest k l)
    (few : ((shift + fences : Nat) : Int) < intMax) :
    l.bytes.Small ∧ (l.bytes.renumber (· + shift)).Small := by
  refine ⟨continues.timely.small (by omega), fun b time found => ?_⟩
  obtain ⟨stamp, original, same⟩ := Option.map_eq_some_iff.mp found
  cases stamp with
  | atLeast _ => simp [Stamp.renumber] at same
  | exactly early =>
    have bounded := continues.timely.exact_le b early original
    simp only [Stamp.renumber, Stamp.exactly.injEq] at same
    omega

/-- A record that reads no marked byte prints the same in both passes. What it reads
agrees up to the numbers of the sections, and these matter to no verdict as long as they
are small. -/
theorem reports (continues : Continues marked shift fences (m :: rest) k l)
    (few : ((shift + fences : Nat) : Int) < intMax) (apart : Disjoint m.reads marked)
    (warn : Bool) : k.reports warn m = l.reports warn m := by
  obtain ⟨small, shifted⟩ := continues.small few
  have reads : m.reads ⊆ markedᶜ := Set.subset_compl_iff_disjoint_right.mpr apart
  have same := ByteState.reports_renumber (shift_strictMono shift) small shifted warn (m := m)
  rw [RecordState.reports, RecordState.reports]
  by_cases opened : 0 < l.bytes.depth
  · rw [continues.pending opened, ← same]
    refine continues.agree.reports reads warn continues.within ?_ fun _ => ?_
    · rw [continues.depth]
      rfl
    · rw [continues.depth]
      rfl
  · -- outside of a transaction no report depends on the pending assigns
    have unread (v : ByteState) (outside : ¬ 0 < v.depth) (pending : List Metadata) :
        v.reports warn m pending = v.reports warn m [] := by
      unfold ByteState.reports
      cases m.type with
      | transactionEnd => rw [if_neg (by omega), if_neg (by omega)]
      | _ => rfl
    rw [unread k.bytes (by rwa [continues.depth]), unread l.bytes opened, ← same]
    refine continues.agree.reports reads warn (by simp) ?_ fun _ => ?_
    · rw [continues.depth]
      rfl
    · rw [continues.depth]
      rfl

/-- A record that reads no marked byte keeps the relation. What it marks depends on the
bytes it reads, so it marks the same in both passes, and it stamps the bytes with
sections that correspond. -/
theorem next (continues : Continues marked shift fences (m :: rest) k l)
    (apart : Disjoint m.reads marked)
    (counted : ¬ (m.type = .flush ∧ fenceAmong rest = false)) :
    Continues marked shift fences rest (k.next m) (l.next m) := by
  have reads : m.reads ⊆ markedᶜ := Set.subset_compl_iff_disjoint_right.mpr apart
  obtain ⟨agree, time, depth, pending, within, timely⟩ := continues
  have inside : 0 < k.bytes.depth ↔ 0 < (l.bytes.renumber (· + shift)).depth := by
    rw [depth]
    rfl
  have begins : k.bytes.depth = 0 ↔ (l.bytes.renumber (· + shift)).depth = 0 := by
    rw [depth]
    rfl
  have same (stored : List Metadata) : k.bytes.pendingStep m stored =
      l.bytes.pendingStep m stored :=
    agree.pendingStep reads stored inside fun _ => begins
  constructor
  · have moved : (l.bytes.renumber (· + shift)).after m = (l.bytes.after m).renumber (· + shift) :=
      ByteState.after_renumber fun _ => Nat.add_right_comm _ _ _
    simp only [RecordState.next, ← moved]
    exact agree.after reads time inside
  · simp only [RecordState.next, ByteState.after_time, time]
    split_ifs <;> omega
  · simp only [RecordState.next, ByteState.after_depth, depth]
  · simp only [RecordState.next, ByteState.after_depth]
    intro opened
    by_cases before : 0 < l.bytes.depth
    · rw [pending before, same]
    · -- only an outermost begin opens a transaction, and it drops all earlier assigns
      unfold depthStep at opened
      split at opened
      · have outermost : l.bytes.depth = 0 := by omega
        simp only [ByteState.pendingStep, *, if_true]
      · omega
      · exact absurd opened before
  · intro n member
    rcases ByteState.mem_pendingStep member with old | ⟨rfl, assign⟩
    · exact within n old
    · rwa [Metadata.reads, assign] at reads
  · exact timely.after counted

/-- One step keeps the relation and prints the same. -/
theorem step (continues : Continues marked shift fences (m :: rest) k l)
    (few : ((shift + fences : Nat) : Int) < intMax) (apart : Disjoint m.reads marked)
    (warn : Bool) :
    Continues marked shift fences rest (RecordState.machine warn rest m k).1
        (RecordState.machine warn rest m l).1 ∧
      (RecordState.machine warn rest m k).2 = (RecordState.machine warn rest m l).2 := by
  unfold RecordState.machine
  split_ifs with skipped
  · obtain ⟨agree, time, depth, pending, within, timely⟩ := continues
    exact ⟨⟨agree, time, depth, pending, within, timely.skip⟩, rfl⟩
  · exact ⟨continues.next apart skipped, continues.reports few apart warn⟩

/-- The passes over the rest of a section print the same and end at one depth. -/
theorem pass (continues : Continues marked shift fences rest k l)
    (few : ((shift + fences : Nat) : Int) < intMax) (apart : ∀ m ∈ rest, Disjoint m.reads marked)
    (warn : Bool) :
    (run (RecordState.machine warn) [] rest k).bytes.depth =
        (run (RecordState.machine warn) [] rest l).bytes.depth ∧
      output (RecordState.machine warn) [] rest k =
        output (RecordState.machine warn) [] rest l := by
  induction rest generalizing k l with
  | nil => exact ⟨continues.depth, rfl⟩
  | cons m rest ih =>
    obtain ⟨kept, printed⟩ := continues.step few (apart m List.mem_cons_self) warn
    obtain ⟨depth, later⟩ := ih kept fun n member => apart n (List.mem_cons_of_mem m member)
    simp only [run, output, List.append_nil]
    exact ⟨depth, congrArg₂ _ printed later⟩

end Continues

/-- Behind a self-contained section the next one starts as if it were the first. -/
theorem continues_behind {first : List Metadata} (contained : SelfContained first) (warn : Bool)
    (second : List Metadata) :
    Continues (footprint first) (fencesAmong first) (fencesAmong second) second
      (run (RecordState.machine warn) second first .initial) .initial := by
  obtain ⟨time, depth⟩ := run_counters warn second first .initial
  have untouched := run_frame warn second first .initial
  refine ⟨?_, ?_, ?_, fun opened => ?_, fun m member => ?_, Timely.initial second⟩
  · exact ⟨untouched.excluded, untouched.dirty, untouched.added, untouched.stamp⟩
  · rw [time]
  · rw [depth]
    exact contained.closed
  · exact absurd opened (by decide)
  · exact absurd member List.not_mem_nil

variable (icl : Icl) (warn : Bool)

/-- A self-contained section in front of records that do not read its footprint. The
verdict of the first section is not changed by what follows, for all of its flushes are
fenced, and the pass over the rest continues as if from the start. -/
theorem verdict_append {first second : List Metadata} (contained : SelfContained first)
    (apart : Apart first second) (few : (fencesAmong (first ++ second) : Int) < intMax) :
    verdict icl warn (first ++ second) =
      ⟨(verdict icl warn first).reports ++ (verdict icl warn second).reports,
        (verdict icl warn second).unmatched⟩ := by
  obtain ⟨_, front⟩ := flushesFenced_front warn contained.settled second [] .initial
  rw [fencesAmong_append] at few
  obtain ⟨depth, printed⟩ := (continues_behind contained warn second).pass few apart warn
  rw [verdict_eq, verdict_eq, verdict_eq, run_append, output_append, List.append_nil, front, depth,
    printed]

/-- Sections can be checked one by one: the reports are those for the whole trace, in
the same order, and unmatched transactions are found in the last section.

The induction is on the sections. The first one stands in front of all others, and none
of these reads its footprint. -/
theorem sections_checked_separately (sections : List (List Metadata)) (last : List Metadata)
    (contained : ∀ part ∈ sections, SelfContained part)
    (apart : List.Pairwise Apart (sections ++ [last]))
    (few : (fencesAmong (sections.flatten ++ last) : Int) < intMax) :
    verdict icl warn (sections.flatten ++ last) =
      ⟨(sections.flatMap fun part => (verdict icl warn part).reports) ++
          (verdict icl warn last).reports,
        (verdict icl warn last).unmatched⟩ := by
  induction sections with
  | nil => rfl
  | cons first rest ih =>
    rw [List.cons_append, List.pairwise_cons] at apart
    obtain ⟨ahead, others⟩ := apart
    have later : Apart first (rest.flatten ++ last) := by
      intro m member
      rcases List.mem_append.mp member with inner | final
      · obtain ⟨part, among, inside⟩ := List.mem_flatten.mp inner
        exact ahead part (List.mem_append_left _ among) m inside
      · exact ahead last (by simp) m final
    rw [List.flatten_cons, List.append_assoc] at few ⊢
    have fewer : (fencesAmong (rest.flatten ++ last) : Int) < intMax := by
      rw [fencesAmong_append] at few
      omega
    rw [verdict_append icl warn (contained first List.mem_cons_self) later few,
      ih (fun part among => contained part (List.mem_cons_of_mem first among)) others fewer]
    simp only [List.flatMap_cons, List.append_assoc]

/-- A transaction on one object, a query about an unflushed second one, and a last
section with an unfenced flush. -/
def separateSections : List (List Metadata) :=
  [[{ type := .transactionBegin }, { type := .transactionAdd, addr := 0, size := 8 },
      { type := .assign, addr := 0, size := 8 }, { type := .flush, addr := 0, size := 8 },
      { type := .fence }, { type := .transactionEnd }],
    [{ type := .assign, addr := 64, size := 8 }, { type := .fence },
      { type := .persist, addr := 64, size := 8 }]]

/-- The flush of the last section has no fence behind it and is skipped. -/
def lastSection : List Metadata :=
  [{ type := .assign, addr := 128, size := 8 }, { type := .flush, addr := 128, size := 8 },
    { type := .persist, addr := 128, size := 8 }]

/-- The query of the second section and that of the last one fail. -/
theorem sections_checked_separately_three_sections :
    (verdict (Segments.segments Nat Int) false (separateSections.flatten ++ lastSection)).reports =
        [.persistError [] 0 64 72, .persistError [] 0 128 136] ∧
      verdict (Segments.segments Nat Int) false (separateSections.flatten ++ lastSection) =
        ⟨(separateSections.flatMap fun part =>
            (verdict (Segments.segments Nat Int) false part).reports) ++
            (verdict (Segments.segments Nat Int) false lastSection).reports,
          (verdict (Segments.segments Nat Int) false lastSection).unmatched⟩ := by
  have contained : ∀ part ∈ separateSections, SelfContained part := by
    intro part member
    simp only [separateSections, List.mem_cons, List.not_mem_nil, or_false] at member
    rcases member with rfl | rfl
    · exact ⟨by decide, by decide⟩
    · exact ⟨by decide, by decide⟩
  have apart : List.Pairwise Apart (separateSections ++ [lastSection]) := by
    have ranges : ((∀ ⦃b : Nat⦄, 64 ≤ b → b < 72 → 8 ≤ b) ∧
        ∀ ⦃b : Nat⦄, 128 ≤ b → b < 136 → 8 ≤ b) ∧
          ∀ ⦃b : Nat⦄, 128 ≤ b → b < 136 → 64 ≤ b → 72 ≤ b := by
      refine ⟨⟨fun b => ?_, fun b => ?_⟩, fun b => ?_⟩ <;> omega
    simpa [separateSections, lastSection, Apart, footprint, Metadata.reads, Metadata.writes,
      Metadata.bytes, Metadata.addrinterval, endaddr, Set.disjoint_left] using ranges
  exact ⟨by decide, sections_checked_separately _ false separateSections lastSection contained apart
    (by decide)⟩

end PMTest
