import PMTest.Agreement

/-!
# Nested transactions

The checker counts the nesting depth of transactions. Of this number it asks whether
it is positive, whether a begin finds it at zero, and whether an end brings it back to
zero. So an inner transaction is invisible: its begin and its end may be dropped from
the trace. This holds of every trace, also of one whose begins and ends do not match.

The pass over what is left follows the pass over the whole trace, at a depth that is
cut off at one.
-/

namespace PMTest

open Lookahead

/-- The record begins or ends a transaction inside another one. -/
def Inner (depth : Int) (m : Metadata) : Prop :=
  (m.type = .transactionBegin ∧ 0 < depth) ∨ (m.type = .transactionEnd ∧ 1 < depth)

instance (depth : Int) (m : Metadata) : Decidable (Inner depth m) :=
  inferInstanceAs (Decidable (_ ∨ _))

/-- The records, at the given depth in front of the first one, without the begins and
the ends of inner transactions. -/
def outermostOnly (depth : Int) : List Metadata → List Metadata
  | [] => []
  | m :: rest =>
      if Inner depth m then outermostOnly (depthStep depth m) rest
      else m :: outermostOnly (depthStep depth m) rest

/-- A record about an inner transaction is a begin or an end, so it neither writes nor
fences. -/
theorem Inner.type_cases {depth : Int} {m : Metadata} (inner : Inner depth m) :
    m.type = .transactionBegin ∨ m.type = .transactionEnd :=
  inner.imp And.left And.left

/-- Leaving out inner begins and ends leaves out no fence. -/
theorem fenceAmong_outermostOnly (depth : Int) (records : List Metadata) :
    fenceAmong (outermostOnly depth records) = fenceAmong records := by
  induction records generalizing depth with
  | nil => rfl
  | cons m rest ih =>
    have tail := ih (depthStep depth m)
    unfold fenceAmong at tail ⊢
    rw [outermostOnly]
    split_ifs with inner
    · rcases inner.type_cases with type | type <;> simp [tail, type]
    · simp [tail]

/-- At a depth that is cut off at one, any other record finds the same answers. The code
compares the depth with zero and one only, and a begin or an end that is not an inner
one is met at depth one at most. -/
theorem cut_depth {depth : Int} {m : Metadata} (outer : ¬ Inner depth m) :
    (0 < depth ↔ 0 < min depth 1) ∧
      (m.type = .transactionEnd → (depth - 1 = 0 ↔ min depth 1 - 1 = 0)) ∧
      (m.type = .transactionBegin → (depth = 0 ↔ min depth 1 = 0)) ∧
      depthStep (min depth 1) m = min (depthStep depth m) 1 := by
  have shallow (ends : m.type = .transactionEnd) : ¬ 1 < depth :=
    fun opened => outer (.inr ⟨ends, opened⟩)
  have outside (begins : m.type = .transactionBegin) : ¬ 0 < depth :=
    fun opened => outer (.inl ⟨begins, opened⟩)
  refine ⟨by omega, fun ends => ?_, fun begins => ?_, ?_⟩
  · have := shallow ends
    omega
  · have := outside begins
    omega
  · unfold depthStep
    split
    · have := outside ‹_›
      omega
    · have := shallow ‹_›
      omega
    · rfl

/-- The states of the two passes know the same, and the depth of the second one is
that of the first, cut off at one. -/
structure CutOff (k l : RecordState) : Prop where
  agree : k.bytes.AgreeOn Set.univ l.bytes
  time : k.bytes.time = l.bytes.time
  depth : l.bytes.depth = min k.bytes.depth 1
  pending : l.pending = k.pending

namespace CutOff

variable {k l : RecordState} {m : Metadata}

/-- A record of both traces keeps this and prints the same. The lists of pending assigns
are equal and the conditions on the depth have the same answers. -/
theorem next (cut : CutOff k l) (outer : ¬ Inner k.bytes.depth m) (warn : Bool) :
    CutOff (k.next m) (l.next m) ∧ k.reports warn m = l.reports warn m := by
  obtain ⟨agree, time, depth, pending⟩ := cut
  obtain ⟨inside, ends, begins, cut⟩ := cut_depth outer
  rw [← depth] at inside ends begins cut
  have reads : m.reads ⊆ Set.univ := Set.subset_univ _
  refine ⟨⟨agree.after reads time inside, ?_, ?_, ?_⟩, ?_⟩
  · simp only [RecordState.next, ByteState.after_time, time]
  · simp only [RecordState.next, ByteState.after_depth, cut]
  · simp only [RecordState.next, pending]
    exact (agree.pendingStep reads _ inside begins).symm
  · rw [RecordState.reports, RecordState.reports, pending]
    exact agree.reports reads warn (fun n _ => Set.subset_univ _) inside ends

/-- The begin or the end of an inner transaction keeps it on the first side alone, and
prints nothing. -/
theorem inner (cut : CutOff k l) (inner : Inner k.bytes.depth m) (warn : Bool) :
    CutOff (k.next m) l ∧ k.reports warn m = [] := by
  obtain ⟨agree, time, depth, pending⟩ := cut
  have quiet : m.writes = ∅ := by
    rcases inner.type_cases with type | type <;> rw [Metadata.writes, type]
  have unfenced : m.type ≠ .fence := by
    rcases inner.type_cases with type | type <;> simp [type]
  refine ⟨⟨?_, ?_, ?_, ?_⟩, ?_⟩
  · have apart : Disjoint m.writes Set.univ := by simp [quiet]
    exact (ByteState.AgreeOn.of_writes k.bytes apart).trans agree
  · simp only [RecordState.next, ByteState.after_time, if_neg unfenced, time]
  · simp only [RecordState.next, ByteState.after_depth, depth]
    rcases inner with ⟨type, opened⟩ | ⟨type, opened⟩ <;> simp only [depthStep, type] <;> omega
  · simp only [RecordState.next, ByteState.pendingStep, pending]
    rcases inner with ⟨type, opened⟩ | ⟨type, opened⟩
    · simp only [type, if_neg opened.ne']
    · simp only [type]
  · simp only [RecordState.reports, ByteState.reports]
    rcases inner with ⟨type, opened⟩ | ⟨type, opened⟩
    · simp only [type]
    · simp only [type]
      exact if_neg (by omega)

end CutOff

/-- The pass over the outermost transactions follows the pass over all of them.

The induction is on the records. The begin or end of an inner transaction is a step of
the first pass alone, any other record is a step of both, and it is skipped by both or
by neither, since all fences are kept. -/
theorem outermostOnly_pass (warn : Bool) (records : List Metadata) {k l : RecordState}
    (cut : CutOff k l) :
    CutOff (run (RecordState.machine warn) [] records k)
        (run (RecordState.machine warn) [] (outermostOnly k.bytes.depth records) l) ∧
      output (RecordState.machine warn) [] records k =
        output (RecordState.machine warn) [] (outermostOnly k.bytes.depth records) l := by
  induction records generalizing k l with
  | nil => exact ⟨cut, rfl⟩
  | cons m rest ih =>
    by_cases inner : Inner k.bytes.depth m
    · have processed : m.type ≠ .flush := by
        rcases inner.type_cases with type | type <;> simp [type]
      obtain ⟨kept, silent⟩ := cut.inner inner warn
      rw [outermostOnly, if_pos inner]
      simp only [run, output, RecordState.machine_of_ne_flush warn _ k processed, silent,
        List.nil_append]
      exact ih kept
    · rw [outermostOnly, if_neg inner]
      simp only [run, output, List.append_nil, RecordState.machine, fenceAmong_outermostOnly]
      split_ifs with skipped
      · have depth : depthStep k.bytes.depth m = k.bytes.depth := by rw [depthStep, skipped.1]
        rw [depth]
        exact ih cut
      · obtain ⟨kept, printed⟩ := cut.next inner warn
        obtain ⟨final, rest⟩ := ih kept
        exact ⟨final, congrArg₂ _ printed rest⟩

/-- What is printed for a trace is printed for its outermost transactions alone: the
begins and ends of nested transactions may be left out. Both passes start at depth zero,
and a depth is positive at the end exactly when the depth cut off at one is. -/
theorem nested_transactions_flatten (icl : Icl) (warn : Bool) (records : List Metadata) :
    verdict icl warn (outermostOnly 0 records) = verdict icl warn records := by
  have start : CutOff .initial .initial :=
    ⟨⟨fun _ _ => Iff.rfl, fun _ _ => Iff.rfl, fun _ _ => Iff.rfl, fun _ _ => rfl⟩, rfl, rfl, rfl⟩
  obtain ⟨final, printed⟩ := outermostOnly_pass warn records start
  have unmatched (depth : Int) : decide (0 < min depth 1) = decide (0 < depth) :=
    decide_eq_decide.mpr (by omega)
  have same := unmatched (run (RecordState.machine warn) [] records .initial).bytes.depth
  rw [← final.depth] at same
  rw [verdict_eq, verdict_eq]
  exact congrArg₂ Verdict.mk printed.symm same

end PMTest
