import PMTest.Erasure
import PMTest.Segments

/-!
# Erasing a redundant flush

A flush none of whose bytes is dirty removes nothing from the persist set. It is
no no-op all the same: it stamps its bytes with the current section, as every
flush does. Erasing it leaves the dirty bytes of the rest of the run unchanged,
and with them every assign and persist error. An order query can tell the
difference only if it reads a byte whose last operation is the erased flush.
-/

namespace PMTest

open Intervals Lookahead

section Simulation

variable (warn : Bool) {t : Trace} {position : Nat} {flush : Ptr}

/-- The two runs differ in stamps only, and only on bytes whose last operation is
at the position of the erased flush. -/
def SameButStamps (t : Trace) (position later : Nat) (v w : ByteState) : Prop :=
  ∃ stamp, w = { v with stamp := stamp } ∧
    ∀ b, stamp b = v.stamp b ∨ LastOperation t.records later b position

/-- The last operation stays the last over a position without an operation. -/
theorem lastOperation_succ {records : List Metadata} {later b last : Nat}
    (untouched : ¬ (AssignedAt records b later ∨ FlushedAt records b later))
    (found : LastOperation records later b last) : LastOperation records (later + 1) b last :=
  (lastBefore_succ _ _ _).mpr (.inr ⟨untouched, found⟩)

/-- A retained record keeps the difference, and removes a byte from it when it operates
on the byte. -/
theorem same_but_stamps_next {later : Nat} {cur : Ptr} {v w : ByteState}
    (found : t.veriptr[later]? = some cur) (summary : Summarises t.records later v)
    (same : SameButStamps t position later v w) :
    SameButStamps t position (later + 1) (v.next t.memory cur) (w.next t.memory cur) := by
  obtain ⟨stamp, rfl, stamps⟩ := same
  have located := t.record_found found
  refine ⟨_, rfl, fun b => ?_⟩
  by_cases agreed : stamp b = v.stamp b
  · exact .inl (ByteState.next_stamp_congr Iff.rfl Iff.rfl rfl fun _ _ => agreed)
  · by_cases touched : AssignedAt t.records b later ∨ FlushedAt t.records b later
    · refine .inl (ByteState.next_stamp_congr Iff.rfl Iff.rfl rfl fun assign flush => ?_)
      cases touched with
      | inl assigned => exact absurd ((summary.touches_iff located .assign b).mpr assigned) assign
      | inr flushed => exact absurd ((summary.touches_iff located .flush b).mpr flushed.1) flush
    · exact .inr (lastOperation_succ touched ((stamps b).resolve_left agreed))

/-- The erased flush opens the difference on the bytes it stamps, and no other
field changes because none of its bytes is dirty. -/
theorem same_but_stamps_erased {v w : ByteState} (found : t.veriptr[position]? = some flush)
    (isFlush : (t.memory flush).type = .flush)
    (clean : ∀ b ∈ (t.memory flush).bytes, ¬ Unflushed t.records position b)
    (summary : Summarises t.records position v) (same : SameButStamps t position position v w) :
    SameButStamps t position (position + 1)
      (if t.Skipped position flush then v else v.next t.memory flush) w := by
  obtain ⟨stamp, rfl, stamps⟩ := same
  have agreed (b : Nat) : stamp b = v.stamp b :=
    (stamps b).resolve_right fun last => Nat.lt_irrefl position last.1
  split_ifs with skipped
  · exact ⟨stamp, rfl, fun b => .inl (agreed b)⟩
  · have fenced : FencedAfter t.records position := by
      by_contra unfenced
      exact skipped ((skipped_iff t position flush).mpr ⟨isFlush, unfenced⟩)
    have dirty : { b | b ∈ v.dirty ∧ ¬ v.Touches .flush (t.memory flush) b } = v.dirty := by
      ext b
      apply and_iff_left_of_imp
      intro member touches
      exact clean b touches.2.1 ((summary.dirty b).mp member)
    rw [v.next_flush t.memory flush isFlush, dirty]
    refine ⟨stamp, rfl, fun b => ?_⟩
    by_cases touches : v.Touches .flush (t.memory flush) b
    · have flushed : FlushedAt t.records b position :=
        ⟨(summary.touches_iff (t.record_found found) .flush b).mp touches, fenced⟩
      exact .inr ((lastBefore_succ _ _ _).mpr (.inl ⟨.inr flushed, rfl⟩))
    · exact .inl ((agreed b).trans (if_neg touches).symm)

/-- The runs with and without a redundant flush stay the same but for stamps. Up to the
flush they are the same, and behind it every record does the same to both. -/
theorem same_but_stamps (found : t.veriptr[position]? = some flush)
    (isFlush : (t.memory flush).type = .flush)
    (clean : ∀ b ∈ (t.memory flush).bytes, ¬ Unflushed t.records position b) (later : Nat)
    (bound : later ≤ t.veriptr.length) :
    SameButStamps t position later (t.before warn later)
      ((t.without flush).before warn (keptBefore t (fun p => p ≠ flush) later)) := by
  refine keep_simulates warn (unfenced_without (by rw [isFlush]; decide))
    (SameButStamps t position) ?_ ?_ ?_ ?_ later bound
  · intro later cur v w located _ _ summary _ same
    exact same_but_stamps_next located summary same
  · rintro later cur v w located _ skipped ⟨stamp, rfl, stamps⟩
    exact ⟨stamp, rfl, fun b => (stamps b).imp id
      (lastOperation_succ (not_operation_of_skipped located skipped b))⟩
  · intro later cur v w located erased summary same
    obtain rfl := eq_of_erased erased
    have here : later = position := (List.getElem?_inj
      (List.getElem?_eq_some_iff.mp located).1 t.distinct).mp (located.trans found.symm)
    subst here
    exact same_but_stamps_erased found isFlush clean summary same
  · exact ⟨_, rfl, fun b => .inl rfl⟩

/-- Only order queries read stamps. -/
theorem lines_eq_of_ne_order (memory : Ptr → Metadata) (cur : Ptr) (v : ByteState)
    (stamp : Nat → Option Stamp) (other : (memory cur).type ≠ .order) :
    ({ v with stamp := stamp } : ByteState).lines warn memory cur = v.lines warn memory cur := by
  unfold ByteState.lines
  cases type : (memory cur).type with
  | order => exact absurd type other
  | _ => rfl

/-- A record prints the same in both runs unless it is an order query that reads a
byte on which they differ. -/
theorem SameButStamps.lines_eq {later : Nat} {cur : Ptr} {v w : ByteState}
    (same : SameButStamps t position later v w)
    (unread : (t.memory cur).type = .order → ∀ b,
      b ∈ (t.memory cur).bytes ∨ b ∈ (t.memory cur).bytesLate →
        ¬ LastOperation t.records later b position) :
    w.lines warn t.memory cur = v.lines warn t.memory cur := by
  obtain ⟨stamp, rfl, stamps⟩ := same
  by_cases order : (t.memory cur).type = .order
  · have agreed (b : Nat) (read : b ∈ (t.memory cur).bytes ∨ b ∈ (t.memory cur).bytesLate) :
        stamp b = v.stamp b := (stamps b).resolve_right (unread order b read)
    simp only [ByteState.lines, order]
    apply congrArg (List.map _)
    exact ByteState.orderReports_congr Iff.rfl Iff.rfl (fun b early => agreed b (.inl early))
      (fun b late => agreed b (.inr late))
  · exact lines_eq_of_ne_order warn t.memory cur v stamp order

end Simulation

section Erasable

variable (icl : Icl) (warn : Bool) (t : Trace)

/-- Erasing a flush none of whose bytes is in the persist set changes no line of any
other record, except of an order query that reads a byte whose last operation is the
erased flush. The flush itself printed a warning at most, and the message about
unmatched transactions stays as it was.

The two runs differ in the stamps of the bytes whose last operation is the flush, and
only order queries read stamps. -/
theorem redundant_flush_erasable (position : Nat) (flush : Ptr)
    (found : t.veriptr[position]? = some flush) (isFlush : (t.memory flush).type = .flush)
    (redundant : ∀ b ∈ (t.memory flush).bytes,
      b ∉ icl.toSet (persistInfoBefore icl warn t position)) :
    (∀ later cur, t.veriptr[later]? = some cur → cur ≠ flush →
      ((t.memory cur).type = .order → ∀ b,
        b ∈ (t.memory cur).bytes ∨ b ∈ (t.memory cur).bytesLate →
          ¬ LastOperation t.records later b position) →
      printedBy icl warn (t.without flush) cur = printedBy icl warn t cur) ∧
    (∀ line ∈ printedBy icl warn t flush, line.report.isFlushWarning = true) ∧
    (veriProc icl warn (t.without flush).memory (t.without flush).veriptr).transactionEndError =
      (veriProc icl warn t.memory t.veriptr).transactionEndError := by
  have summary := summarises_found t warn found
  have clean : ∀ b ∈ (t.memory flush).bytes, ¬ Unflushed t.records position b := by
    intro b member unflushed
    apply redundant b member
    rw [toSet_persistInfoBefore]
    exact (summary.dirty b).mpr unflushed
  refine ⟨fun later cur located different unread => ?_, fun line printed => ?_, ?_⟩
  · have bound := (List.getElem?_eq_some_iff.mp located).1.le
    have same := same_but_stamps warn found isFlush clean later bound
    rw [printedBy_without icl warn (by rw [isFlush]; decide) located different,
      printedBy_eq icl warn t later cur located, same.lines_eq warn unread]
  · rw [printedBy_eq icl warn t position flush found] at printed
    split_ifs at printed with skipped
    · simp at printed
    · simp only [ByteState.lines, isFlush, ByteState.flushReports] at printed
      split_ifs at printed
      · obtain rfl := List.mem_singleton.mp printed
        rfl
      · simp at printed
  · obtain ⟨_, same, _⟩ := same_but_stamps warn found isFlush clean t.veriptr.length (Nat.le_refl _)
    rw [keptBefore_length] at same
    have depth : ((t.without flush).before warn (t.without flush).veriptr.length).depth =
        (t.before warn t.veriptr.length).depth := by
      rw [Trace.without] at same ⊢
      rw [same]
    rw [transactionEndError_eq icl warn t, transactionEndError_eq icl warn (t.without flush), depth]

end Erasable

/-- A range is written and flushed, another one is written, and the first one is
flushed once more before the order of the two is queried. -/
def flushedAgain : Trace :=
  .ofRecords
    [{ type := .assign, addr := 0, size := 4 }, { type := .flush, addr := 0, size := 4 },
      { type := .fence }, { type := .assign, addr := 8, size := 4 }, { type := .fence },
      { type := .flush, addr := 0, size := 4 }, { type := .fence },
      { type := .persist, addr := 0, size := 4 },
      { type := .order, addr := 0, size := 4, addrLate := 8, sizeLate := 4 }]

/-- The second flush finds nothing to flush. -/
theorem second_flush_redundant : ∀ b ∈ (flushedAgain.memory 5).bytes,
    b ∉ (Segments.segments Nat Int).toSet
      (persistInfoBefore (Segments.segments Nat Int) false flushedAgain 5) := by
  have missed : (Segments.segments Nat Int).find
      (persistInfoBefore (Segments.segments Nat Int) false flushedAgain 5)
      (flushedAgain.memory 5).addrinterval = none := by decide
  have apart := (IntervalContainers.find_eq_none _ _ _).mp missed
  exact fun b inside => Set.disjoint_left.mp apart inside

/-- The persist query behind the second flush prints the same without it. -/
theorem redundant_flush_erasable_second_flush :
    printedBy (Segments.segments Nat Int) false (flushedAgain.without 5) 7 =
      printedBy (Segments.segments Nat Int) false flushedAgain 7 :=
  (redundant_flush_erasable (Segments.segments Nat Int) false flushedAgain 5 5 rfl rfl
    second_flush_redundant).1 7 7 rfl (by decide) (fun order => absurd order (by decide))

/-- The order query fails because of the second flush, which moves the first range into
a later section than the write to the other one. The flush is redundant all the same. -/
theorem second_flush_changes_order :
    (∀ m ∈ flushedAgain.records, m.type ≠ .exclude) ∧ (flushedAgain.memory 5).type = .flush ∧
    (∀ b ∈ (flushedAgain.memory 5).bytes, b ∉ (Segments.segments Nat Int).toSet
      (persistInfoBefore (Segments.segments Nat Int) false flushedAgain 5)) ∧
    printedBy (Segments.segments Nat Int) false flushedAgain 8 =
      [⟨8, 8, .orderError [] 0 0 4 8 12⟩] ∧
    printedBy (Segments.segments Nat Int) false (flushedAgain.without 5) 8 = [] :=
  ⟨by decide, rfl, second_flush_redundant, by decide, by decide⟩

end PMTest
