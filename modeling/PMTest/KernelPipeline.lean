import PMTest.KernelSession

/-!
# What the kernel client checks, and what it deletes

The heap of the client holds the transactions of the records that it has looked at: a
buffer belongs to one place of one transaction, and a check rewrites only the buffers
of its own. So each check gives the verdict of its transaction, whatever the order of
the kernel thread, the client and the workers. When the client deletes, no check is
left to run.
-/

namespace PMTest

open Transitions Lookahead

section Framing

variable {m : Metadata}

/-- A delimiter opens the next transaction. -/
theorem transactions_concat_delim (delim : m.isDelim = true) (body : List Metadata) :
    transactions (body ++ [m]) = transactions body ++ [[]] := by
  induction body using transactions_induction with
  | last seg inner =>
    rw [transactions_next delim inner, transactions_last inner]
    rfl
  | next seg n more first inner ih =>
    rw [List.append_assoc, List.cons_append, transactions_next first inner, ih,
      transactions_next first inner]
    rfl

/-- A record that is no delimiter belongs to the last transaction. The induction follows
the division of the records at their delimiters; only its last part meets the new
record. -/
theorem transactions_concat_record (other : m.isDelim = false) {body last : List Metadata}
    {closed : List (List Metadata)} (split : transactions body = closed ++ [last]) :
    transactions (body ++ [m]) = closed ++ [last ++ [m]] := by
  induction body using transactions_induction generalizing closed with
  | last seg inner =>
    have grown : ∀ n ∈ seg ++ [m], n.isDelim = false := by
      intro n member
      rcases List.mem_append.mp member with early | here
      · exact inner n early
      · rwa [List.mem_singleton.mp here]
    rw [transactions_last inner] at split
    rw [transactions_last grown]
    cases closed with
    | nil =>
      obtain rfl := List.head_eq_of_cons_eq split
      rfl
    | cons first rest => simp at split
  | next seg n more first inner ih =>
    rw [transactions_next first inner] at split
    rw [List.append_assoc, List.cons_append, transactions_next first inner]
    cases closed with
    | nil => exact absurd (List.cons.inj split).2 (transactions_ne_nil more)
    | cons head rest =>
      obtain ⟨rfl, tail⟩ := List.cons.inj split
      rw [ih tail]
      rfl

/-- The number of transactions is known from the delimiters, each of which begins one
more. -/
theorem length_transactions (body : List Metadata) :
    (transactions body).length = body.countP Metadata.isDelim + 1 := by
  induction body using List.reverseRecOn with
  | nil => rfl
  | append_singleton body m ih =>
    cases delim : m.isDelim with
    | true =>
      rw [transactions_concat_delim delim, List.length_append, ih, List.countP_append]
      simp [delim]
    | false =>
      obtain ⟨closed, last, split⟩ : ∃ closed last, transactions body = closed ++ [last] :=
        ⟨_, _, (List.dropLast_append_getLast (transactions_ne_nil body)).symm⟩
      rw [split] at ih
      rw [transactions_concat_record delim split, List.countP_append]
      simpa [delim] using ih

end Framing

section Heap

/-- A check changes no record outside its trace. -/
theorem veriProc_untouched (icl : Icl) (warn : Bool) (t : Trace) (p : Ptr)
    (outside : p ∉ t.veriptr) : (veriProc icl warn t.memory t.veriptr).memory p = t.memory p := by
  have at_end : ScanAt warn t.memory t.veriptr t.veriptr.length _ :=
    scan_invariant icl warn t.veriptr t.distinct t.veriptr.length (le_refl _)
  obtain ⟨_, _, tracks⟩ := replay_extends warn t.veriptr t.distinct (tailSwitch warn)
    t.veriptr.length t.veriptr.length _ at_end at_end.bound (le_refl _)
    (fun first p rest r split same => by
      rw [List.take_length] at split
      rw [List.drop_length, List.append_nil]
      exact tail_agrees warn t.veriptr _ at_end first p rest r split same)
  rw [List.take_length] at tracks
  exact tracks.untouched p outside

/-- The buffers of the transactions are in the order of their allocation, all below a
bound, and hold the records of the transactions that have not been checked. -/
structure Holds (allocated : List Metadata) (bound : Nat) (checked : List Nat)
    (traces : List (List Ptr)) (contents : List (List Metadata)) : Prop where
  length : traces.length = contents.length
  sorted : traces.flatten.Pairwise (· < ·)
  below : ∀ p ∈ traces.flatten, p < bound
  filled : ∀ k, k ∉ checked → (traces.getD k []).map (contentsAt allocated) = contents.getD k []

namespace Holds

variable {allocated later : List Metadata} {bound : Nat} {checked : List Nat}
  {traces closed : List (List Ptr)} {contents done : List (List Metadata)} {tx : List Ptr}
  {records : List Metadata} {m : Metadata}

/-- A buffer of one trace is a buffer of all traces. -/
theorem mem_flatten_getD {p k : Nat} (member : p ∈ traces.getD k []) : p ∈ traces.flatten := by
  rw [List.getD_eq_getElem?_getD] at member
  cases found : traces[k]? with
  | none =>
    rw [found] at member
    exact absurd member List.not_mem_nil
  | some trace =>
    rw [found] at member
    exact List.mem_flatten.mpr ⟨trace, List.mem_of_getElem? found, member⟩

/-- Buffers from the bound on do not matter. -/
theorem mono (holds : Holds allocated bound checked traces contents) {above : Nat}
    (raised : bound ≤ above)
    (same : ∀ p < bound, contentsAt later p = contentsAt allocated p) :
    Holds later above checked traces contents := by
  refine ⟨holds.length, holds.sorted, fun p member => ?_, fun k unchecked => ?_⟩
  · exact Nat.lt_of_lt_of_le (holds.below p member) raised
  · rw [← holds.filled k unchecked]
    apply List.map_congr_left
    intro p member
    exact same p (holds.below p (mem_flatten_getD member))

/-- A transaction begins without records. -/
theorem opened (holds : Holds allocated bound checked traces contents) :
    Holds allocated bound checked (traces ++ [[]]) (contents ++ [[]]) := by
  obtain ⟨length, sorted, below, filled⟩ := holds
  have same : (traces ++ [[]]).flatten = traces.flatten := by simp
  refine ⟨by simp [length], by rwa [same], by rwa [same], fun k unchecked => ?_⟩
  have before := filled k unchecked
  simp only [List.getD_eq_getElem?_getD] at before ⊢
  rcases Nat.lt_trichotomy k traces.length with early | here | late
  · rw [List.getElem?_append_left early, List.getElem?_append_left (by omega)]
    exact before
  · simp [here, length]
  · rw [List.getElem?_eq_none (by simp; omega), List.getElem?_eq_none (by simp; omega)]
    rfl

/-- A record is read into a buffer that is not used yet. It is above all others, so the
buffers stay in their order, and no older buffer has changed. -/
theorem record (holds : Holds allocated bound checked (closed ++ [tx]) (done ++ [records]))
    {buf : Ptr} (fresh : bound ≤ buf)
    (same : ∀ p < bound, contentsAt later p = contentsAt allocated p)
    (read : contentsAt later buf = m) :
    Holds later (buf + 1) checked (closed ++ [tx ++ [buf]]) (done ++ [records ++ [m]]) := by
  obtain ⟨length, sorted, below, filled⟩ := holds.mono (le_refl bound) same
  have counted : closed.length = done.length := by simpa using length
  have grown : (closed ++ [tx ++ [buf]]).flatten = (closed ++ [tx]).flatten ++ [buf] := by simp
  refine ⟨by simp [counted], ?_, ?_, fun k outside => ?_⟩
  · rw [grown, List.pairwise_append]
    refine ⟨sorted, List.pairwise_singleton _ _, fun p member q here => ?_⟩
    rw [List.mem_singleton.mp here]
    exact Nat.lt_of_lt_of_le (below p member) fresh
  · intro p member
    rw [grown, List.mem_append, List.mem_singleton] at member
    rcases member with earlier | rfl
    · exact Nat.lt_succ_of_lt (Nat.lt_of_lt_of_le (below p earlier) fresh)
    · exact Nat.lt_succ_self p
  · have before := filled k outside
    simp only [List.getD_eq_getElem?_getD] at before ⊢
    rcases Nat.lt_trichotomy k closed.length with early | rfl | late
    · rw [List.getElem?_append_left early, List.getElem?_append_left (by omega)] at before ⊢
      exact before
    · rw [List.getElem?_concat_length, counted, List.getElem?_concat_length] at before ⊢
      have records_eq : tx.map (contentsAt later) = records := before
      simp [records_eq, read]
    · rw [List.getElem?_eq_none (by simp; omega), List.getElem?_eq_none (by simp; omega)]
      rfl

/-- The traces do not share buffers, because all buffers are in one strict order. -/
theorem apart (holds : Holds allocated bound checked traces contents) {j k p : Nat}
    (other : j ≠ k) (here : p ∈ traces.getD j []) : p ∉ traces.getD k [] := by
  intro there
  have distinct := List.nodup_flatten.mp (holds.sorted.imp Nat.ne_of_lt)
  have found {i : Nat} (member : p ∈ traces.getD i []) :
      ∃ bound : i < traces.length, p ∈ traces[i] := by
    rw [List.getD_eq_getElem?_getD] at member
    by_cases inside : i < traces.length
    · rw [List.getElem?_eq_getElem inside] at member
      exact ⟨inside, member⟩
    · rw [List.getElem?_eq_none (by omega)] at member
      exact absurd member List.not_mem_nil
  obtain ⟨inside, first⟩ := found here
  obtain ⟨bound, second⟩ := found there
  rcases Nat.lt_or_gt_of_ne other with before | after
  · exact List.pairwise_iff_getElem.mp distinct.2 j k inside bound before first second
  · exact List.pairwise_iff_getElem.mp distinct.2 k j bound inside after second first

/-- A check that changes the buffers of one trace at most. -/
theorem check (holds : Holds allocated bound checked traces contents) (k : Nat)
    (same : ∀ p < bound, p ∉ traces.getD k [] → contentsAt later p = contentsAt allocated p) :
    Holds later bound (checked ++ [k]) traces contents := by
  refine ⟨holds.length, holds.sorted, holds.below, fun j outside => ?_⟩
  rw [List.mem_append, List.mem_singleton, not_or] at outside
  rw [← holds.filled j outside.1]
  apply List.map_congr_left
  intro p member
  exact same p (holds.below p (mem_flatten_getD member)) (holds.apart outside.2 member)

end Holds

end Heap

namespace KernelSession

section Contents

variable {icl : Icl} {warn : Bool} {N : Nat} {s next : KernelSession} {a : KernelAction}
  {pool : Pool Unit Nat}

/-- The mark that was read last is no part of the body. -/
theorem body_of_marked (marked : s.pc.marked = true) : s.body = s.handled.dropLast := if_pos marked

/-- In front of the next mark all records are. -/
theorem body_of_unmarked (unmarked : s.pc.marked = false) : s.body = s.handled := by
  rw [body, unmarked]
  rfl

/-- The heap holds the transactions of the records that were looked at, and every check
has printed the verdict of its transaction. A mark that has been read is the last of
these records. -/
structure Held (icl : Icl) (warn : Bool) (s : KernelSession) : Prop where
  heap : ∃ bound, Holds s.allocated bound (s.printed.map Prod.fst) s.traces (transactions s.body) ∧
    bound + (if s.pc = .read then 1 else 0) ≤ s.allocated.length
  unended : ∀ m ∈ s.body, m.isEnding = false
  marked : s.pc.marked = true → ∃ mark, s.handled = s.body ++ [mark] ∧
    if s.pc = .returned 0 then mark.isDelim = true else mark.isEnding = true
  flag : ∀ flag, s.pc = .returned flag → flag = 0 ∨ flag = -1
  verdicts : ∀ entry ∈ s.printed,
    entry.2 = verdict icl warn ((transactions s.body).getD entry.1 [])

namespace Held

/-- A step from and to the reading loop that leaves the records alone. -/
theorem keep (held : Held icl warn s) (heap : ∃ bound, Holds next.allocated bound
      (next.printed.map Prod.fst) next.traces (transactions next.body) ∧
        bound + (if next.pc = .read then 1 else 0) ≤ next.allocated.length)
    (body : next.body = s.body) (unmarked : next.pc.marked = false)
    (printed : next.printed = s.printed) : Held icl warn next := by
  refine ⟨heap, by rw [body]; exact held.unended, ?_, ?_, ?_⟩
  · intro marked
    rw [unmarked] at marked
    cases marked
  · intro flag here
    rw [here] at unmarked
    cases unmarked
  · rw [printed, body]
    exact held.verdicts

/-- A step behind the loop that leaves the heap alone. There the ending mark has been
read, and all transactions are in the vector. -/
theorem leave (held : Held icl warn s) (left : s.pc.looping = false)
    (leaves : next.pc.looping = false) (allocated : next.allocated = s.allocated)
    (txVector : next.txVector = s.txVector) (handled : next.handled = s.handled)
    (printed : next.printed = s.printed) : Held icl warn next := by
  have behind {t : KernelSession} (out : t.pc.looping = false) :
      t.pc.marked = true ∧ t.pc ≠ .read ∧ ∀ flag, t.pc ≠ .returned flag := by
    cases pc : t.pc with
    | collect | deleteRecords | deleteTraces | destroy =>
      exact ⟨rfl, by simp, by simp⟩
    | allocate | read | returned | submit =>
      rw [pc] at out
      cases out
  obtain ⟨marked, elsewhere, other⟩ := behind left
  obtain ⟨marks, beside, others⟩ := behind leaves
  have body : next.body = s.body := by
    rw [body_of_marked marks, body_of_marked marked, handled]
  have traces : next.traces = s.traces := by
    rw [Pooled.traces_of_not_looping leaves, Pooled.traces_of_not_looping left, txVector]
  obtain ⟨bound, holds, room⟩ := held.heap
  rw [if_neg elsewhere] at room
  obtain ⟨mark, split, ending⟩ := held.marked marked
  rw [if_neg (other 0)] at ending
  refine ⟨⟨bound, ?_, ?_⟩, ?_, fun _ => ⟨mark, ?_, ?_⟩, fun flag here => absurd here (others flag),
    ?_⟩
  · rw [allocated, printed, traces, body]
    exact holds
  · rw [if_neg beside, allocated]
    exact room
  · rw [body]
    exact held.unended
  · rw [handled, body]
    exact split
  · rw [if_neg (others 0)]
    exact ending
  · rw [printed, body]
    exact held.verdicts

/-- A new buffer does not change the older ones. -/
theorem contentsAt_concat {allocated : List Metadata} {fresh : Metadata} {p : Ptr}
    (below : p < allocated.length) :
    contentsAt (allocated ++ [fresh]) p = contentsAt allocated p := by
  simp [contentsAt, List.getElem?_append_left below]

/-- Reading into a buffer leaves the buffers below it alone. -/
theorem contentsAt_set_of_lt {allocated : List Metadata} {m : Metadata} {p buf : Ptr}
    (below : p < buf) : contentsAt (allocated.set buf m) p = contentsAt allocated p := by
  simp [contentsAt, List.getElem?_set_ne (Nat.ne_of_gt below)]

/-- The buffer holds what was read into it. -/
theorem contentsAt_set_self {allocated : List Metadata} {m : Metadata} {buf : Ptr}
    (below : buf < allocated.length) : contentsAt (allocated.set buf m) buf = m := by
  simp [contentsAt, below]

/-- The buffers behind a check hold what the memory of the check holds. -/
theorem contentsAt_map_range {count : Nat} {memory : Ptr → Metadata} {p : Ptr}
    (below : p < count) : contentsAt ((List.range count).map memory) p = memory p := by
  simp [contentsAt, below]

/-- A closed transaction stays as it is when records are appended. -/
theorem closed_getD {body : List Metadata} {m : Metadata} {k : Nat}
    (closed : k < (transactions body).length - 1) :
    (transactions (body ++ [m])).getD k [] = (transactions body).getD k [] := by
  simp only [List.getD_eq_getElem?_getD]
  cases delim : m.isDelim with
  | true => rw [transactions_concat_delim delim, List.getElem?_append_left (by omega)]
  | false =>
    obtain ⟨front, last, split⟩ : ∃ front last, transactions body = front ++ [last] :=
      ⟨_, _, (List.dropLast_append_getLast (transactions_ne_nil body)).symm⟩
    rw [split, List.length_append, List.length_singleton, Nat.add_sub_cancel] at closed
    rw [transactions_concat_record delim split, split, List.getElem?_append_left closed,
      List.getElem?_append_left closed]

/-- The buffers of a trace that is checked are different, and hold the transaction.
Checks of other transactions have left them alone. -/
theorem trace_of_job (held : Held icl warn s) {k : Nat} (passed : k < s.traces.length - 1)
    (fresh : k ∉ s.printed.map Prod.fst) :
    s.txVector.getD k [] = s.traces.getD k [] ∧ (s.txVector.getD k []).Nodup ∧
      (s.txVector.getD k []).map (contentsAt s.allocated) = (transactions s.body).getD k [] := by
  obtain ⟨bound, holds, _⟩ := held.heap
  have same : s.txVector.getD k [] = s.traces.getD k [] := by
    simp only [List.getD_eq_getElem?_getD]
    cases looping : s.pc.looping with
    | true =>
      rw [Pooled.traces_of_looping looping] at passed ⊢
      rw [List.length_append, List.length_singleton, Nat.add_sub_cancel] at passed
      rw [List.getElem?_append_left passed]
    | false => rw [Pooled.traces_of_not_looping looping]
  refine ⟨same, ?_, by rw [same]; exact holds.filled k fresh⟩
  have member : s.traces.getD k [] ∈ s.traces := by
    rw [List.getD_eq_getElem?_getD, List.getElem?_eq_getElem (by omega)]
    exact List.getElem_mem _
  rw [same]
  exact (List.nodup_flatten.mp (holds.sorted.imp Nat.ne_of_lt)).1 _ member

/-- A mark ends the transaction. Its buffer is not part of it, so the traces and their
contents stay, and the mark is remembered as the last record. -/
theorem mark (held : Held icl warn s) {m : Metadata} (here : s.pc = .read)
    (isMark : m.isDelim = true ∨ m.isEnding = true)
    (pc : next.pc = .returned (if m.isDelim then 0 else -1))
    (allocated : next.allocated = s.allocated.set (s.allocated.length - 1) m)
    (handled : next.handled = s.handled ++ [m]) (tx : next.tx = s.tx)
    (txVector : next.txVector = s.txVector) (printed : next.printed = s.printed) :
    Held icl warn next := by
  have unmarked : s.body = s.handled := body_of_unmarked (by rw [here]; rfl)
  have body : next.body = s.body := by
    rw [body_of_marked (by rw [pc]; rfl), handled, List.dropLast_concat, unmarked]
  have traces : next.traces = s.traces := by
    rw [Pooled.traces_of_looping (by rw [pc]; rfl), Pooled.traces_of_looping (by rw [here]; rfl),
      tx, txVector]
  obtain ⟨bound, holds, room⟩ := held.heap
  rw [here, if_pos rfl] at room
  have unused : bound ≤ s.allocated.length - 1 := by omega
  refine ⟨⟨bound, ?_, ?_⟩, ?_, fun _ => ⟨m, ?_, ?_⟩, fun flag found => ?_, ?_⟩
  · rw [allocated, printed, traces, body]
    exact holds.mono (le_refl bound) fun p below =>
      contentsAt_set_of_lt (Nat.lt_of_lt_of_le below unused)
  · rw [pc, if_neg (by simp), allocated, List.length_set]
    omega
  · rw [body]
    exact held.unended
  · rw [handled, body, unmarked]
  · rw [pc]
    cases delim : m.isDelim with
    | true => simp
    | false => simpa [delim] using isMark
  · rw [pc] at found
    obtain rfl := MainPc.returned.inj found
    cases m.isDelim <;> simp
  · rw [printed, body]
    exact held.verdicts

/-- A record is added to the transaction that is being read, in the buffer that was
allocated for it. No check concerns this transaction yet. -/
theorem record (held : Held icl warn s) (checked : ∀ k ∈ s.printed.map Prod.fst,
      k < s.traces.length - 1) {m : Metadata} (here : s.pc = .read)
    (other : m.isDelim = false ∧ m.isEnding = false) (pc : next.pc = .allocate)
    (allocated : next.allocated = s.allocated.set (s.allocated.length - 1) m)
    (handled : next.handled = s.handled ++ [m]) (tx : next.tx = s.tx ++ [s.allocated.length - 1])
    (txVector : next.txVector = s.txVector) (printed : next.printed = s.printed) :
    Held icl warn next := by
  have unmarked : s.body = s.handled := body_of_unmarked (by rw [here]; rfl)
  have body : next.body = s.body ++ [m] := by
    rw [body_of_unmarked (by rw [pc]; rfl), handled, unmarked]
  have traces : next.traces = s.txVector ++ [s.tx ++ [s.allocated.length - 1]] := by
    rw [Pooled.traces_of_looping (by rw [pc]; rfl), tx, txVector]
  obtain ⟨bound, holds, room⟩ := held.heap
  rw [here, if_pos rfl] at room
  obtain ⟨closed, last, split⟩ : ∃ closed last, transactions s.body = closed ++ [last] :=
    ⟨_, _, (List.dropLast_append_getLast (transactions_ne_nil _)).symm⟩
  have counted := holds.length
  have unused : bound ≤ s.allocated.length - 1 := by omega
  have last_lt : s.allocated.length - 1 < s.allocated.length := by omega
  refine ⟨⟨s.allocated.length, ?_, ?_⟩, fun n member => ?_, fun marked => ?_, fun flag found => ?_,
    fun entry member => ?_⟩
  · rw [Pooled.traces_of_looping (by rw [here]; rfl), split] at holds
    rw [allocated, printed, traces, body, transactions_concat_record other.1 split]
    have read := holds.record unused
      (fun p below => contentsAt_set_of_lt (Nat.lt_of_lt_of_le below unused))
      (@contentsAt_set_self s.allocated m _ last_lt)
    rwa [Nat.sub_add_cancel (by omega)] at read
  · rw [pc, if_neg (by simp), allocated, List.length_set]
    exact le_refl _
  · rw [body, List.mem_append, List.mem_singleton] at member
    rcases member with earlier | rfl
    · exact held.unended n earlier
    · exact other.2
  · rw [pc] at marked
    cases marked
  · rw [pc] at found
    cases found
  · rw [printed] at member
    rw [body, closed_getD (by rw [← counted]; exact checked _ (List.mem_map_of_mem member))]
    exact held.verdicts entry member

/-- A delimited transaction goes to the vector, and the next one begins. The delimiter,
which was the last record, now belongs to the body and divides it. -/
theorem submit (held : Held icl warn s) (checked : ∀ k ∈ s.printed.map Prod.fst,
      k < s.traces.length - 1) {flag : Int} (here : s.pc = .returned flag) (other : flag ≠ -1)
    (pc : next.pc = .submit) (allocated : next.allocated = s.allocated)
    (handled : next.handled = s.handled) (tx : next.tx = [])
    (txVector : next.txVector = s.txVector ++ [s.tx]) (printed : next.printed = s.printed) :
    Held icl warn next := by
  obtain ⟨mark, split, delim⟩ := held.marked (by rw [here]; rfl)
  obtain rfl : flag = 0 := (held.flag flag here).resolve_right other
  rw [if_pos here] at delim
  have unended : mark.isEnding = false := by
    simp_all [Metadata.isDelim, Metadata.isEnding]
  have body : next.body = s.body ++ [mark] := by
    rw [body_of_unmarked (by rw [pc]; rfl), handled, split]
  have traces : next.traces = s.traces ++ [[]] := by
    rw [Pooled.traces_of_looping (by rw [pc]; rfl), Pooled.traces_of_looping (by rw [here]; rfl),
      tx, txVector]
  obtain ⟨bound, holds, room⟩ := held.heap
  rw [here, if_neg (by simp)] at room
  have counted := holds.length
  refine ⟨⟨bound, ?_, ?_⟩, fun n member => ?_, fun marked => ?_, fun flag found => ?_,
    fun entry member => ?_⟩
  · rw [allocated, printed, traces, body, transactions_concat_delim delim]
    exact holds.opened
  · rw [pc, if_neg (by simp), allocated]
    exact room
  · rw [body, List.mem_append, List.mem_singleton] at member
    rcases member with earlier | rfl
    · exact held.unended n earlier
    · exact unended
  · rw [pc] at marked
    cases marked
  · rw [pc] at found
    cases found
  · rw [printed] at member
    rw [body, closed_getD (by rw [← counted]; exact checked _ (List.mem_map_of_mem member))]
    exact held.verdicts entry member

/-- The transaction in front of the ending mark goes to the vector as well, but it is
not submitted. -/
theorem collect (held : Held icl warn s) (here : s.pc = .returned (-1)) (pc : next.pc = .collect)
    (allocated : next.allocated = s.allocated) (handled : next.handled = s.handled)
    (txVector : next.txVector = s.txVector ++ [s.tx]) (printed : next.printed = s.printed) :
    Held icl warn next := by
  obtain ⟨mark, split, ending⟩ := held.marked (by rw [here]; rfl)
  rw [here, if_neg (by simp)] at ending
  have body : next.body = s.body := by
    rw [body_of_marked (by rw [pc]; rfl), body_of_marked (by rw [here]; rfl), handled]
  have traces : next.traces = s.traces := by
    rw [Pooled.traces_of_not_looping (by rw [pc]; rfl),
      Pooled.traces_of_looping (by rw [here]; rfl), txVector]
  obtain ⟨bound, holds, room⟩ := held.heap
  rw [here, if_neg (by simp)] at room
  refine ⟨⟨bound, ?_, ?_⟩, ?_, fun _ => ⟨mark, ?_, ?_⟩, fun flag found => ?_, ?_⟩
  · rw [allocated, printed, traces, body]
    exact holds
  · rw [pc, if_neg (by simp), allocated]
    exact room
  · rw [body]
    exact held.unended
  · rw [handled, body]
    exact split
  · rw [pc, if_neg (by simp)]
    exact ending
  · rw [pc] at found
    cases found
  · rw [printed, body]
    exact held.verdicts

/-- A check prints the verdict of its transaction and changes the buffers of its trace
at most. The verdict depends on the records alone, and these are the records of the
transaction. -/
theorem check (held : Held icl warn s) {k : Nat} (passed : k < s.traces.length - 1)
    (fresh : k ∉ s.printed.map Prod.fst) {outcome : Outcome icl}
    (checks : outcome = veriProc icl warn (contentsAt s.allocated) (s.txVector.getD k []))
    (pc : next.pc = s.pc)
    (allocated : next.allocated = (List.range s.allocated.length).map outcome.memory)
    (handled : next.handled = s.handled) (tx : next.tx = s.tx)
    (txVector : next.txVector = s.txVector)
    (printed : next.printed =
      s.printed ++ [(k, ⟨outcome.stdout.map Line.report, outcome.transactionEndError⟩)]) :
    Held icl warn next := by
  obtain ⟨same, distinct, records⟩ := held.trace_of_job passed fresh
  let t : Trace := ⟨contentsAt s.allocated, s.txVector.getD k [], distinct⟩
  have body : next.body = s.body := by rw [KernelSession.body, KernelSession.body, pc, handled]
  have traces : next.traces = s.traces := by
    rw [KernelSession.traces, KernelSession.traces, pc, tx, txVector]
  have size : next.allocated.length = s.allocated.length := by
    rw [allocated, List.length_map, List.length_range]
  obtain ⟨bound, holds, room⟩ := held.heap
  refine ⟨⟨bound, ?_, ?_⟩, ?_, ?_, ?_, fun entry member => ?_⟩
  · rw [printed, List.map_append, traces, body]
    refine holds.check k fun p below outside => ?_
    rw [← same] at outside
    have inside : p < s.allocated.length := by omega
    rw [allocated, contentsAt_map_range inside, checks]
    exact veriProc_untouched icl warn t p outside
  · rw [pc, size]
    exact room
  · rw [body]
    exact held.unended
  · rw [pc, handled, body]
    exact held.marked
  · rw [pc]
    exact held.flag
  · rw [body]
    rw [printed] at member
    rcases List.mem_append.mp member with earlier | here
    · exact held.verdicts entry earlier
    · obtain rfl := List.mem_singleton.mp here
      have judged : t.verdict icl warn = verdict icl warn ((transactions s.body).getD k []) := by
        rw [← verdict_records, ← records]
        rfl
      rw [checks]
      exact judged

/-- Every move keeps the heap in step with the records.

The moves of the kernel thread, the reads and the workers between their checks do not
concern the heap. The others are the cases that the lemmas above are about: an
allocation, an empty read, a mark, a record, a submission, the last transaction, a
check, and the moves behind the loop. -/
theorem moves (positive : 0 < N) (constructed : pool.Constructed N) (pooled : Pooled N pool s)
    (held : Held icl warn s) (move : s.Moves icl warn N a next) : Held icl warn next := by
  obtain ⟨checked, checking⟩ := pooled.checks positive constructed
  cases move with
  | call | write | interrupt | read | work =>
    exact ⟨held.heap, held.unended, held.marked, held.flag, held.verdicts⟩
  | allocate here =>
    have body : s.body = s.handled := body_of_unmarked (by rw [here]; rfl)
    obtain ⟨bound, holds, room⟩ := held.heap
    rw [Pooled.traces_of_looping (by rw [here]; rfl), body] at holds
    rw [here] at room
    refine held.keep ⟨bound, ?_, ?_⟩ body.symm rfl rfl
    · exact holds.mono (le_refl bound) fun p below =>
        contentsAt_concat (Nat.lt_of_lt_of_le below room)
    · rw [List.length_append]
      exact Nat.add_le_add_right room 1
  | empty here =>
    have body : s.body = s.handled := body_of_unmarked (by rw [here]; rfl)
    obtain ⟨bound, holds, room⟩ := held.heap
    rw [Pooled.traces_of_looping (by rw [here]; rfl), body] at holds
    exact held.keep ⟨bound, holds, (Nat.le_add_right _ _).trans room⟩ body.symm rfl rfl
  | mark here done isMark => exact held.mark here isMark rfl rfl rfl rfl rfl rfl
  | record here done other => exact held.record checked here other rfl rfl rfl rfl rfl rfl
  | submit here other => exact held.submit checked here other rfl rfl rfl rfl rfl rfl
  | collect here => exact held.collect here rfl rfl rfl rfl rfl
  | @submitting moved here =>
    have body : s.body = s.handled := body_of_unmarked (by rw [here]; rfl)
    obtain ⟨bound, holds, room⟩ := held.heap
    rw [Pooled.traces_of_looping (by rw [here]; rfl), body] at holds
    rw [here] at room
    split_ifs
    · exact held.keep ⟨bound, holds, room⟩ body.symm rfl rfl
    · exact held.keep ⟨bound, holds, room⟩ body.symm rfl rfl
  | @collecting moved here =>
    refine held.leave (by rw [here]; rfl) ?_ rfl rfl rfl rfl
    split_ifs <;> rfl
  | deleteRecord here | recordsDeleted here | deleteTrace here | destroy here =>
    exact held.leave (by rw [here]; rfl) rfl rfl rfl rfl rfl
  | destroying here =>
    have left : s.pc.looping = false := by rw [here]; rfl
    exact held.leave left left rfl rfl rfl rfl
  | @check id job moved before taken =>
    obtain ⟨inside, _⟩ := Pool.verified_of_step before taken
    obtain ⟨passed, fresh⟩ := checking id inside job before
    exact held.check passed fresh rfl rfl rfl rfl rfl rfl rfl

end Held

end Contents

section Results

variable {icl : Icl} {warn : Bool} {N : Nat} {s next : KernelSession} {a : KernelAction}
  {pool : Pool Unit Nat} {actions : List KernelAction}

/-- What is known of every run: the module has followed its calls, the client has
received what was written, the pool has what was submitted, and the heap holds the
transactions. -/
theorem tracked_of_run (positive : 0 < N) (constructed : pool.Constructed N)
    (ran : run (step N icl warn) (initial pool) actions = some s) :
    Wired actions s ∧ s.Reading ∧ Pooled N pool s ∧ Held icl warn s := by
  refine run_history (fun past s => Wired past s ∧ s.Reading ∧ Pooled N pool s ∧ Held icl warn s)
    ⟨?_, ?_, ?_, ?_⟩ ?_ ran
  · exact ⟨rfl, [], rfl, fun _ => List.not_mem_nil, rfl⟩
  · exact ⟨rfl, fun _ => rfl, rfl⟩
  · refine Pooled.of_looping rfl ⟨[], rfl, rfl⟩ ?_
    rw [Pool.checkedInputs, show (initial pool).pool = pool from rfl, constructed.verified]
    rfl
  · refine ⟨⟨0, ⟨rfl, .nil, fun p member => absurd member List.not_mem_nil, fun k _ => ?_⟩,
      le_refl 0⟩, fun m member => absurd member List.not_mem_nil, fun impossible => ?_,
      fun flag impossible => ?_, fun entry member => absurd member List.not_mem_nil⟩
    · cases k with
      | zero => rfl
      | succ k => rfl
    · cases impossible
    · cases impossible
  · rintro past s a next ⟨wired, reading, pooled, held⟩ taken
    have move := step_moves taken
    exact ⟨wired.moves move, reading.moves move, pooled.moves constructed move,
      held.moves positive constructed pooled move⟩

/-- Behind the loop the reader is idle, and the ending mark was the last record, so all
that was received are the body and this mark. -/
theorem ended (reading : s.Reading) (held : Held icl warn s) (collected : s.pc.collected = true) :
    ∃ mark, s.kernel.fifo.received = s.body ++ [mark] ∧ mark.isEnding = true ∧
      s.kernel.fifo.reader = .outside := by
  have position : s.pc.marked = true ∧ s.pc ≠ .read ∧ s.pc ≠ .returned 0 := by
    cases pc : s.pc with
    | deleteRecords | deleteTraces | destroy => exact ⟨rfl, by simp, by simp⟩
    | allocate | read | returned | submit | collect =>
      rw [pc] at collected
      cases collected
  obtain ⟨mark, split, ending⟩ := held.marked position.1
  rw [if_neg position.2.2] at ending
  have outside := reading.outside position.2.1
  have received := reading.received
  rw [outside, split] at received
  exact ⟨mark, received.trans (List.append_nil _), ending, outside⟩

/-- When `getVeri` of the client has returned, whatever the order of the kernel thread,
the client and the workers was, the client has received some records and an ending mark,
and the verdicts that were printed are those of the transactions that a delimiter ends
in these records, each once. They are records that the kernel thread made with tracking
on, in their order, and the first ones it made if none of its waits was interrupted.

The pool is empty behind `getVeri`, so the checked jobs are the submitted ones, and each
check has printed the verdict of its transaction. What was received is, by the theorems
about the FIFO, part of what was written. -/
theorem pipeline_checks_transactions (positive : 0 < N) (constructed : pool.Constructed N)
    (ran : run (step N icl warn) (initial pool) actions = some s)
    (collected : s.pc.collected = true) :
    ∃ body mark, s.kernel.fifo.received = body ++ [mark] ∧
      (∀ m ∈ body, m.isEnding = false) ∧ mark.isEnding = true ∧
      (s.printed.map Prod.snd).Perm ((transactions body).dropLast.map (verdict icl warn)) ∧
      (body ++ [mark]).Sublist (kernelLedger (calls actions)).written ∧
      (.signal ∉ actions → body ++ [mark] <+: (kernelLedger (calls actions)).written) := by
  obtain ⟨wired, reading, pooled, held⟩ := tracked_of_run positive constructed ran
  obtain ⟨mark, received, ending, _⟩ := ended reading held collected
  obtain ⟨_, fifoActions, fifoRan, uninterrupted, passed⟩ := wired
  refine ⟨s.body, mark, received, held.unended, ending, ?_, ?_, fun quiet => ?_⟩
  · obtain ⟨poolActions, poolRan, inputs⟩ := pooled.ran
    obtain ⟨_, holds, _⟩ := held.heap
    have checked := (pooled.emptied collected).checkedInputs positive constructed poolRan
    rw [← pooled.checked, inputs, holds.length] at checked
    have verdicts : s.printed.map Prod.snd = (s.printed.map Prod.fst).map fun k =>
        verdict icl warn ((transactions s.body).getD k []) := by
      rw [List.map_map]
      exact List.map_congr_left held.verdicts
    have all : ((List.range ((transactions s.body).length - 1)).map fun k =>
        verdict icl warn ((transactions s.body).getD k [])) =
          (transactions s.body).dropLast.map (verdict icl warn) := by
      apply List.ext_getElem
      · simp
      · intro k below _
        have inside : k < (transactions s.body).length - 1 := by simpa using below
        have bound : k < (transactions s.body).length := by omega
        simp [List.getElem?_eq_getElem bound]
    rw [verdicts, ← all]
    exact checked.map _
  · rw [← received, ← passed]
    exact KernelFifo.received_sublist fifoRan
  · have order := (KernelFifo.single_writer_order fifoRan (uninterrupted quiet)).2
    rw [received, passed, List.append_assoc] at order
    exact ⟨_, order⟩

/-- The kernel thread records one transaction, and the client reads it and waits. -/
def oneTransaction : List KernelAction :=
  let write := List.replicate 3 KernelAction.writer
  let read := .allocate { type := .ending } :: List.replicate 3 KernelAction.client
  [.call .pmtestStart, .call (.create { type := .fence } (.assign 0 4 [] 1))] ++ write ++
    [.call (.create { type := .fence } (.persist 0 4 [] 2))] ++ write ++
    [.call (.transactionDelim { type := .fence })] ++ write ++
    [.call (.ending { type := .fence })] ++ write ++
    read ++ read ++ read ++ List.replicate 10 KernelAction.client ++ read ++
    List.replicate 3 KernelAction.client ++ List.replicate 19 (KernelAction.worker 0) ++
    List.replicate 11 KernelAction.client

/-- One transaction with a failing check goes the whole way from the kernel thread to
the output. -/
theorem pipeline_checks_transactions_one_transaction :
    ∃ s, run (step 1 (Segments.segments Nat Int) false) (initial Pool.started) oneTransaction =
        some s ∧ s.pc = .deleteRecords 0 ∧
      s.printed.map Prod.snd = [⟨[.persistError [] 2 0 4], false⟩] ∧
      ∃ body mark, (∀ m ∈ body, m.isEnding = false) ∧ mark.isEnding = true ∧
        (s.printed.map Prod.snd).Perm
          ((transactions body).dropLast.map (verdict (Segments.segments Nat Int) false)) ∧
        body ++ [mark] <+: (kernelLedger (calls oneTransaction)).written := by
  obtain ⟨body, mark, _, inner, ending, verdicts, _, first⟩ := pipeline_checks_transactions
    Nat.zero_lt_one (Pool.started_constructed 1)
    (show run (step 1 (Segments.segments Nat Int) false) _ oneTransaction = some _ from rfl) rfl
  exact ⟨_, rfl, rfl, by decide, body, mark, inner, ending, verdicts, first (by decide)⟩

/-- How many buffers and transactions have been deleted. -/
structure Deleting (s : KernelSession) : Prop where
  kept : s.pc.collected = false → s.deletedRecords = 0 ∧ s.deletedTraces = 0
  records : ∀ i, s.pc = .deleteRecords i → s.deletedRecords = i ∧ i ≤ s.txVector.length
  all : (∃ i, s.pc = .deleteTraces i) ∨ s.pc = .destroy → s.deletedRecords = s.txVector.length

/-- The loops behind `getVeri` delete one object in each round, and nothing is deleted
before them. -/
theorem Deleting.moves (deleting : s.Deleting) (move : s.Moves icl warn N a next) :
    next.Deleting := by
  obtain ⟨kept, records, all⟩ := deleting
  cases move with
  | call | write | interrupt | read | check | work | destroying => exact ⟨kept, records, all⟩
  | allocate here | empty here | mark here | record here | submit here | collect here =>
    refine ⟨fun _ => kept (by rw [here]; rfl), fun i impossible => ?_, fun impossible => ?_⟩
    · cases impossible
    · rcases impossible with ⟨i, impossible⟩ | impossible <;> cases impossible
  | submitting here =>
    have none := kept (by rw [here]; rfl)
    split_ifs
    · exact ⟨fun _ => none, by simp, by simp⟩
    · exact ⟨fun _ => none, by simp, by simp⟩
  | collecting here =>
    have none := kept (by rw [here]; rfl)
    split_ifs
    · refine ⟨fun _ => none, fun i first => ?_, by simp⟩
      obtain rfl := MainPc.deleteRecords.inj first
      exact ⟨none.1, Nat.zero_le _⟩
    · exact ⟨fun _ => none, by simp, by simp⟩
  | @deleteRecord i here left =>
    refine ⟨by simp [MainPc.collected], fun j there => ?_, by simp⟩
    obtain rfl := MainPc.deleteRecords.inj there
    exact ⟨rfl, left⟩
  | @recordsDeleted i here counted =>
    obtain ⟨deleted, bound⟩ := records i here
    refine ⟨by simp [MainPc.collected], by simp, fun _ => ?_⟩
    exact deleted.trans (Nat.le_antisymm bound (Nat.not_lt.mp counted))
  | @deleteTrace i here left =>
    have deleted := all (.inl ⟨i, here⟩)
    exact ⟨by simp [MainPc.collected], by simp, fun _ => deleted⟩
  | @destroy i _ here counted =>
    have deleted := all (.inl ⟨i, here⟩)
    exact ⟨by simp [MainPc.collected], by simp, fun _ => deleted⟩

/-- The client deletes nothing that a worker still needs, and its first loop stays
inside the vector of buffers although it counts the transactions. What it deletes is
less than what it allocated: one buffer remains for every record that is no mark, and
one for every empty read.

Deletion begins when the pool is empty. Every buffer belongs to a read; the reads are
the empty ones, the marks and the other records; and there is one mark for every
transaction in the vector, which is what the first loop counts. -/
theorem client_cleanup (positive : 0 < N) (constructed : pool.Constructed N)
    (ran : run (step N icl warn) (initial pool) actions = some s) :
    (∀ id < N, ∀ job, s.pool.worker id = .verify job →
      s.deletedRecords = 0 ∧ s.deletedTraces = 0) ∧
    (∀ i, s.pc = .deleteRecords i → i < s.txVector.length → i < s.allocated.length) ∧
    (s.pc = .destroy → s.allocated.length = s.deletedRecords +
      (s.handled.filter fun m => !(m.isDelim || m.isEnding)).length +
      (s.kernel.fifo.reads.filter Option.isNone).length) := by
  obtain ⟨_, reading, pooled, held⟩ := tracked_of_run positive constructed ran
  have deleting := run_invariant Deleting
    ⟨fun _ => ⟨rfl, rfl⟩, by simp [initial], by simp [initial]⟩
    (fun _ _ _ deleting taken => deleting.moves (step_moves taken)) ran
  -- behind the loop every buffer belongs to a read, and every transaction to a mark
  have counts (collected : s.pc.collected = true) :
      s.allocated.length = s.txVector.length +
        (s.handled.filter fun m => !(m.isDelim || m.isEnding)).length +
        (s.kernel.fifo.reads.filter Option.isNone).length := by
    obtain ⟨mark, received, ending, outside⟩ := ended reading held collected
    obtain ⟨_, holds, _⟩ := held.heap
    have handled : s.handled = s.body ++ [mark] := by
      have same := reading.received
      rw [outside, received] at same
      exact (same.trans (List.append_nil _)).symm
    have traces := holds.length
    rw [Pooled.traces_of_not_looping (MainPc.left_of_collected collected).1,
      length_transactions] at traces
    have buffers := reading.buffers
    rw [outside, if_neg (by simp),
      List.length_eq_reduceOption_length_add_filter_none (l := s.kernel.fifo.reads)] at buffers
    have reads : s.kernel.fifo.reads.reduceOption.length = s.body.length + 1 := by
      rw [← KernelFifo.received, received, List.length_append, List.length_singleton]
    have data : (s.handled.filter fun m => !(m.isDelim || m.isEnding)).length =
        s.body.countP fun m => !m.isDelim := by
      rw [handled, List.filter_append, List.length_append, List.countP_eq_length_filter]
      have clean : (s.body.filter fun m => !(m.isDelim || m.isEnding)) =
          s.body.filter fun m => !m.isDelim := by
        apply List.filter_congr
        intro m member
        rw [held.unended m member, Bool.or_false]
      rw [clean]
      simp [ending]
    have split : s.body.length = s.body.countP Metadata.isDelim +
        s.body.countP fun m => !m.isDelim := by
      rw [List.length_eq_countP_add_countP Metadata.isDelim]
      simp
    omega
  refine ⟨fun id inside job before => ?_, fun i here left => ?_, fun here => ?_⟩
  · apply deleting.kept
    apply eq_false_of_ne_true
    intro collected
    have hand := (pooled.emptied collected).checking id inside
    rw [before] at hand
    cases hand
  · have whole := counts (by rw [here]; rfl)
    omega
  · rw [deleting.all (.inr here)]
    exact counts (by rw [here]; rfl)

/-- The client deletes two of its four buffers. -/
theorem client_cleanup_one_transaction :
    ∃ s, run (step 1 (Segments.segments Nat Int) false) (initial Pool.started)
        (oneTransaction ++ List.replicate 6 .client) = some s ∧ s.pc = .destroy ∧
      s.allocated.length = 4 ∧ s.deletedRecords = 2 ∧
      s.allocated.length = s.deletedRecords +
        (s.handled.filter fun m => !(m.isDelim || m.isEnding)).length +
        (s.kernel.fifo.reads.filter Option.isNone).length := by
  have result := client_cleanup Nat.zero_lt_one (Pool.started_constructed 1)
    (show run (step 1 (Segments.segments Nat Int) false) _
      (oneTransaction ++ List.replicate 6 .client) = some _ from rfl)
  exact ⟨_, rfl, rfl, rfl, rfl, result.2.2 rfl⟩

end Results

end KernelSession

end PMTest
