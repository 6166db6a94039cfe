import PMTest.Placement
import PMTest.Segments

/-!
# Independent operations commute

Two neighbouring assigns or flushes whose ranges share no byte may be exchanged.
Each of them changes the dirty bytes and the stamps of its own range only, neither
reads those of the other, and no fence lies between them, so both belong to one
section in either order.

One thing does change: inside a transaction the two assigns are stored in another
order, and the end of the transaction checks them in that order. The reports are
the same up to a permutation.
-/

namespace PMTest

open Lookahead

/-- An operation is no fence, so it does not decide whether a flush counts. -/
theorem Metadata.IsOperation.ne_fence {m : Metadata} (operation : m.IsOperation) :
    m.type ≠ .fence := by
  cases operation with
  | inl assign => simp [assign]
  | inr flush => simp [flush]

namespace ByteState

variable {memory : Ptr → Metadata} {p q : Ptr} {v : ByteState}

section Single

/-- Bytes outside of its range are no concern of a record. -/
theorem next_outside {b : Nat} (outside : b ∉ (memory p).bytes) :
    (b ∈ (v.next memory p).dirty ↔ b ∈ v.dirty) ∧ (v.next memory p).stamp b = v.stamp b := by
  have untouched (type : MetadataType) : ¬ v.Touches type (memory p) b :=
    fun touches => outside touches.2.1
  simp [next, untouched]

variable (operation : (memory p).IsOperation)
include operation

/-- The record behind an operation touches the same bytes. -/
theorem touches_next (type : MetadataType) (m : Metadata) (b : Nat) :
    (v.next memory p).Touches type m b ↔ v.Touches type m b := by
  rw [Touches, Touches, (v.next_operation operation).1]

/-- The record behind an operation is skipped in both orders or in none. -/
theorem effective_next (m : Metadata) : (v.next memory p).Effective m ↔ v.Effective m := by
  rw [Effective, Effective, (v.next_operation operation).1]

/-- A record stores its address in front of an independent operation and behind it, or
in neither case. -/
theorem storeStep_next (m : Metadata) (cur : Ptr) (stored : List Ptr) :
    (v.next memory p).storeStep m cur stored = v.storeStep m cur stored := by
  classical
  simp only [storeStep, v.effective_next operation, (v.next_operation operation).2.2.2]

/-- An operation stores its address behind the others or not at all. -/
theorem storeStep_operation (stored : List Ptr) :
    v.storeStep (memory p) p stored = stored ++ v.storeStep (memory p) p [] := by
  unfold storeStep
  cases operation with
  | inl assign =>
    simp only [assign]
    split_ifs <;> simp
  | inr flush => simp [flush]

/-- On a byte outside of its range an operation may come before or after another
record: it does not touch the byte at all. -/
theorem next_next_outside {b : Nat} (outside : b ∉ (memory p).bytes) :
    (b ∈ ((v.next memory p).next memory q).dirty ↔
      b ∈ ((v.next memory q).next memory p).dirty) ∧
    ((v.next memory p).next memory q).stamp b = ((v.next memory q).next memory p).stamp b := by
  obtain ⟨dirty, stamp⟩ := v.next_outside outside
  obtain ⟨after, stampAfter⟩ := (v.next memory q).next_outside outside
  have assign := v.touches_next operation .assign (memory q) b
  have flush := v.touches_next operation .flush (memory q) b
  rw [after, stampAfter]
  exact ⟨next_dirty_congr assign flush fun _ _ => dirty,
    next_stamp_congr assign flush (v.next_operation operation).2.2.1 fun _ _ => stamp⟩

end Single

/-- The states differ in the order of the stored addresses. -/
def SameButOrder (v w : ByteState) : Prop :=
  ∃ stored, w = { v with stored := stored } ∧ stored.Perm v.stored

/-- Equal states do not differ in the order either. -/
theorem SameButOrder.refl (v : ByteState) : SameButOrder v v := ⟨v.stored, rfl, .refl _⟩

section Pair

variable (first : (memory p).IsOperation) (second : (memory q).IsOperation)
  (apart : Disjoint (memory p).bytes (memory q).bytes)
include first second apart

/-- Two operations on disjoint ranges commute up to the order of their addresses.

A byte lies outside of one of the two ranges, and there it does not matter when that
operation comes. Exclusions, logged ranges, time and depth are not changed by operations
at all. The addresses are stored in the order of the operations. -/
theorem next_comm : SameButOrder ((v.next memory p).next memory q)
    ((v.next memory q).next memory p) := by
  have bytes (b : Nat) : (b ∈ ((v.next memory p).next memory q).dirty ↔
      b ∈ ((v.next memory q).next memory p).dirty) ∧
      ((v.next memory p).next memory q).stamp b = ((v.next memory q).next memory p).stamp b := by
    by_cases inside : b ∈ (memory p).bytes
    · obtain ⟨dirty, stamp⟩ := v.next_next_outside (q := p) second
        (Set.disjoint_left.mp apart inside)
      exact ⟨dirty.symm, stamp.symm⟩
    · exact v.next_next_outside first inside
  obtain ⟨excluded, added, time, depth⟩ := v.next_operation first
  obtain ⟨excluded', added', time', depth'⟩ := v.next_operation second
  obtain ⟨excludedQ, addedQ, timeQ, depthQ⟩ := (v.next memory p).next_operation second
  obtain ⟨excludedP, addedP, timeP, depthP⟩ := (v.next memory q).next_operation first
  refine ⟨((v.next memory q).next memory p).stored, ?_, ?_⟩
  · apply ByteState.ext
    · rw [excludedP, excluded', excludedQ, excluded]
    · exact (Set.ext fun b => (bytes b).1).symm
    · rw [addedP, added', addedQ, added]
    · exact (funext fun b => (bytes b).2).symm
    · rfl
    · rw [timeP, time', timeQ, time]
    · rw [depthP, depth', depthQ, depth]
  · change ((v.next memory q).storeStep (memory p) p (v.storeStep (memory q) q v.stored)).Perm
      ((v.next memory p).storeStep (memory q) q (v.storeStep (memory p) p v.stored))
    rw [v.storeStep_next second, v.storeStep_next first, v.storeStep_operation first,
      v.storeStep_operation second, v.storeStep_operation second (v.storeStep _ _ _),
      v.storeStep_operation first v.stored, List.append_assoc, List.append_assoc]
    exact List.perm_append_comm.append_left v.stored

/-- What the second operation prints does not depend on the first one. -/
theorem lines_next (warn : Bool) :
    (v.next memory p).lines warn memory q = v.lines warn memory q := by
  classical
  obtain ⟨_, added, _, depth⟩ := v.next_operation first
  have effective := v.effective_next first (memory q)
  have clean : Disjoint (memory q).bytes (v.next memory p).dirty ↔
      Disjoint (memory q).bytes v.dirty := by
    rw [Set.disjoint_left, Set.disjoint_left]
    refine forall₂_congr fun b inside => not_congr ?_
    exact (v.next_outside (Set.disjoint_right.mp apart inside)).1
  cases second with
  | inl assign => simp only [lines, assign, assignReports, effective, added, depth]
  | inr flush => simp only [lines, flush, flushReports, effective, clean]

/-- The steps of two independent operations can be swapped, also if one of them is a
flush that is skipped. Whether it is skipped depends on the fences behind both, since
the other operation is none. -/
theorem swap_steps (warn : Bool) (rest : List Ptr) :
    SameButOrder (run (machine warn memory) rest [p, q] v)
        (run (machine warn memory) rest [q, p] v) ∧
      (output (machine warn memory) rest [p, q] v).Perm
        (output (machine warn memory) rest [q, p] v) := by
  have unfenced {cur : Ptr} (operation : (memory cur).IsOperation) :
      hasFence memory ([cur] ++ rest) = hasFence memory rest := by
    simp [hasFence, operation.ne_fence]
  simp only [run, output, List.append_nil, List.nil_append]
  unfold machine
  rw [unfenced first, unfenced second]
  by_cases skipP : (memory p).type = .flush ∧ hasFence memory rest = false
  · simp only [if_pos skipP, List.nil_append, List.append_nil]
    exact ⟨.refl _, .refl _⟩
  · by_cases skipQ : (memory q).type = .flush ∧ hasFence memory rest = false
    · simp only [if_neg skipP, if_pos skipQ, List.nil_append, List.append_nil]
      exact ⟨.refl _, .refl _⟩
    · simp only [if_neg skipP, if_neg skipQ, v.lines_next first second apart,
        v.lines_next second first apart.symm]
      exact ⟨v.next_comm first second apart, List.perm_append_comm⟩

end Pair

section Rest

variable {w : ByteState}

/-- Lists of addresses in another order stay so. -/
theorem storeStep_perm (m : Metadata) (cur : Ptr) {stored other : List Ptr}
    (order : stored.Perm other) : (v.storeStep m cur stored).Perm (v.storeStep m cur other) := by
  unfold storeStep
  cases m.type with
  | assign =>
    simp only
    split_ifs
    · exact order.append_right [cur]
    · exact order
  | transactionBegin =>
    simp only
    split_ifs
    · exact .refl _
    · exact order
  | _ => exact order

/-- Only the end of a transaction reads the stored addresses, one by one. -/
theorem lines_perm (warn : Bool) (memory : Ptr → Metadata) (cur : Ptr) {stored : List Ptr}
    (order : stored.Perm v.stored) :
    (({ v with stored := stored } : ByteState).lines warn memory cur).Perm
      (v.lines warn memory cur) := by
  unfold lines
  cases (memory cur).type with
  | transactionEnd =>
    simp only
    split_ifs
    · exact order.flatMap_right _
    · exact .refl _
  | _ => exact .refl _

/-- Every later step keeps the order the only difference, and prints the same lines up
to a permutation. Only the end of a transaction reads the stored addresses, and it
checks them one by one. -/
theorem SameButOrder.step (warn : Bool) (memory : Ptr → Metadata) (later : List Ptr) (cur : Ptr)
    (order : SameButOrder v w) :
    SameButOrder (machine warn memory later cur v).1 (machine warn memory later cur w).1 ∧
      (machine warn memory later cur v).2.Perm (machine warn memory later cur w).2 := by
  unfold machine
  split_ifs with skipped
  · exact ⟨order, .refl _⟩
  · obtain ⟨stored, rfl, order⟩ := order
    refine ⟨⟨_, next_with_stored rfl v stored, ?_⟩, (lines_perm warn memory cur order).symm⟩
    exact v.storeStep_perm (memory cur) cur order

end Rest

end ByteState

section Swap

variable (icl : Icl) (warn : Bool) {memory : Ptr → Metadata} {p q : Ptr}

/-- The two passes print the same lines up to a permutation, and end in the same
state up to the order of the stored addresses. In front of the two operations the
passes are the same, since a fence behind them is found in either order. -/
theorem swap_passes (first : (memory p).IsOperation) (second : (memory q).IsOperation)
    (apart : Disjoint (memory p).bytes (memory q).bytes) (front rest : List Ptr) :
    ByteState.SameButOrder
        (run (ByteState.machine warn memory) [] (front ++ ([p, q] ++ rest)) ByteState.initial)
        (run (ByteState.machine warn memory) [] (front ++ ([q, p] ++ rest)) ByteState.initial) ∧
      (output (ByteState.machine warn memory) [] (front ++ ([p, q] ++ rest))
          ByteState.initial).Perm
        (output (ByteState.machine warn memory) [] (front ++ ([q, p] ++ rest))
          ByteState.initial) := by
  have fences (before : List Ptr) : hasFence memory (before ++ ([p, q] ++ rest)) =
      hasFence memory (before ++ ([q, p] ++ rest)) := by
    simp [hasFence, first.ne_fence, second.ne_fence]
  obtain ⟨reached, printed⟩ := front_agrees warn fences front
  simp only [run_append, output_append, List.append_nil, ← reached, ← printed]
  generalize run (ByteState.machine warn memory) ([p, q] ++ rest) front ByteState.initial = v
  obtain ⟨swapped, lines⟩ := v.swap_steps first second apart warn rest
  obtain ⟨final, others⟩ := simulate_same (ByteState.machine warn memory)
    (ByteState.machine warn memory) ByteState.SameButOrder concatenates_perm [] []
    (fun x later _ _ order => order.step warn memory (later ++ []) x) rest _ _ swapped
  exact ⟨final, (lines.append others).append_left _⟩

/-- Exchanging two neighbouring operations on disjoint ranges changes neither the
reports, up to a permutation, nor the message about unmatched transactions.

The second trace may have its records at other addresses, which do not matter. So it is
compared with the first trace whose two addresses are exchanged, and there the two
passes are run side by side. -/
theorem independent_operations_commute (t u : Trace) (front rest : List Metadata)
    (m n : Metadata) (recorded : t.records = front ++ m :: n :: rest)
    (swapped : u.records = front ++ n :: m :: rest) (first : m.IsOperation)
    (second : n.IsOperation) (apart : Disjoint m.bytes n.bytes) :
    (t.reports icl warn).Perm (u.reports icl warn) ∧
      (veriProc icl warn t.memory t.veriptr).transactionEndError =
        (veriProc icl warn u.memory u.veriptr).transactionEndError := by
  obtain ⟨before, others, split, rfl, tail⟩ := List.map_eq_append_iff.mp recorded
  obtain ⟨p, _, rfl, rfl, next⟩ := List.map_eq_cons_iff.mp tail
  obtain ⟨q, after, rfl, rfl, rfl⟩ := List.map_eq_cons_iff.mp next
  -- the swapped records at the addresses of the first trace
  let exchanged : Trace :=
    { memory := t.memory
      veriptr := before ++ q :: p :: after
      distinct := by
        have order : (before ++ q :: p :: after).Perm t.veriptr := by
          rw [split]
          exact (List.Perm.swap p q after).append_left before
        exact order.nodup_iff.mpr t.distinct }
  have records : exchanged.records = u.records := by
    rw [swapped]
    simp [exchanged, Trace.records]
  obtain ⟨reports, unmatched⟩ := reports_eq_of_records icl warn records
  obtain ⟨⟨_, final, _⟩, lines⟩ := swap_passes warn first second apart before after
  constructor
  · rw [← reports, t.reports_eq, exchanged.reports_eq, split]
    exact lines.map Line.report
  · have depth := congrArg ByteState.depth final
    rw [← unmatched, transactionEndError_eq_run, transactionEndError_eq_run, split]
    exact congrArg (fun depth : Int => decide (0 < depth)) depth.symm

/-- Two assigns of a transaction, the second of which is not logged and stays
unflushed, and the same in the other order. -/
def assignsInOrder : Trace := .ofRecords
  [{ type := .transactionBegin }, { type := .transactionAdd, addr := 0, size := 4 },
    { type := .assign, addr := 0, size := 4 }, { type := .assign, addr := 8, size := 4 },
    { type := .transactionEnd }]

/-- The transaction of `assignsInOrder` with its two assigns in the other order. -/
def assignsSwapped : Trace := .ofRecords
  [{ type := .transactionBegin }, { type := .transactionAdd, addr := 0, size := 4 },
    { type := .assign, addr := 8, size := 4 }, { type := .assign, addr := 0, size := 4 },
    { type := .transactionEnd }]

/-- The two orders print the same three reports, those of the transaction end in the
order of the assigns. -/
theorem independent_operations_commute_assigns :
    assignsInOrder.reports (Segments.segments Nat Int) false =
      [.assignError [] 0 8 12, .persistError [] 0 0 4, .persistError [] 0 8 12] ∧
    assignsSwapped.reports (Segments.segments Nat Int) false =
      [.assignError [] 0 8 12, .persistError [] 0 8 12, .persistError [] 0 0 4] ∧
    (assignsInOrder.reports (Segments.segments Nat Int) false).Perm
      (assignsSwapped.reports (Segments.segments Nat Int) false) := by
  have apart : Disjoint ({ type := .assign, addr := 0, size := 4 } : Metadata).bytes
      ({ type := .assign, addr := 8, size := 4 } : Metadata).bytes := by
    apply Set.disjoint_left.mpr
    intro b inside other
    have below := ((Metadata.mem_bytes_of_fits _ (by decide) b).mp inside).2
    have above := ((Metadata.mem_bytes_of_fits _ (by decide) b).mp other).1
    exact absurd (Nat.lt_of_le_of_lt above below) (by decide)
  exact ⟨by decide, by decide, (independent_operations_commute (Segments.segments Nat Int) false
    assignsInOrder assignsSwapped
    [{ type := .transactionBegin }, { type := .transactionAdd, addr := 0, size := 4 }]
    [{ type := .transactionEnd }] _ _ rfl rfl (by decide) (by decide) apart).1⟩

end Swap

end PMTest
