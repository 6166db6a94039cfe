import PMTest.KernelFifo

/-!
# The process that reads the kernel's records

The client reads records from the device one at a time and collects them in a
trace. A delimiter ends the trace, which is handed to the checker, and the ending
mark ends the client. An empty read is repeated.

The traces are the parts of the stream between its delimiters. The part behind the
last delimiter is collected as well, but the ending mark makes the client leave
before it hands that trace over, so everything is checked exactly when a delimiter
stands right in front of the ending mark.
-/

namespace PMTest

open Transitions

/-- One call of `read` on the device: its result and the buffer behind it. -/
structure DeviceRead where
  result : Int
  buf : Metadata
  deriving DecidableEq, Repr

/-- What `PMTestDeviceRead` returns to its caller. The buffer is new for every call
and keeps its contents when nothing was copied. -/
def deviceRead (fresh : Metadata) : Option Metadata → DeviceRead
  | none => ⟨1, fresh⟩
  | some m => ⟨0, m⟩

/-- How `read_transaction` ends: with its result, the records it has pushed to `tx`
and the reads still to come, in its assertion, or not within the given reads. -/
inductive TransactionRead
  | returned (flag : Int) (tx : List Metadata) (rest : List DeviceRead)
  | aborted
  | polling
  deriving DecidableEq, Repr

/-- `read_transaction`. -/
def readTransaction (tx : List Metadata) : List DeviceRead → TransactionRead
  | [] => .polling
  | read :: rest =>
      if read.result < 0 then .aborted
      else if read.result = 1 then readTransaction tx rest
      else
        match read.buf.type with
        | .transactionDelim => .returned 0 tx rest
        | .ending => .returned (-1) tx rest
        | _ => readTransaction (tx ++ [read.buf]) rest

/-- The loop of `main`, bounded by the number of its rounds: the traces passed to
`execVeri` until the loop is left. -/
def mainLoop : Nat → List DeviceRead → Option (List (List Metadata))
  | 0, _ => none
  | rounds + 1, reads =>
      match readTransaction [] reads with
      | .returned flag tx rest =>
          if flag = -1 then some [] else (mainLoop rounds rest).map (tx :: ·)
      | .aborted | .polling => none

/-- The traces the client passes to `execVeri`. Every round takes a read at least. -/
def clientMain (reads : List DeviceRead) : Option (List (List Metadata)) :=
  mainLoop (reads.length + 1) reads

namespace Metadata

/-- The record separates two traces. -/
def isDelim (m : Metadata) : Bool := m.type = .transactionDelim

/-- The record ends the stream. -/
def isEnding (m : Metadata) : Bool := m.type = .ending

end Metadata

section Reads

/-- The records that were read, without the empty reads. -/
def recordsRead (reads : List DeviceRead) : List Metadata :=
  reads.filterMap fun read => if read.result = 1 then none else some read.buf

/-- No read failed. -/
def Healthy (reads : List DeviceRead) : Prop := ∀ read ∈ reads, 0 ≤ read.result

/-- The records that the device returns are those that the reader of the FIFO has
received. -/
theorem recordsRead_device (fresh : Metadata) (copies : List (Option Metadata)) :
    recordsRead (copies.map (deviceRead fresh)) = copies.reduceOption := by
  induction copies with
  | nil => rfl
  | cons copied rest ih => cases copied <;> simp_all [recordsRead, deviceRead]

/-- The device never returns a negative result. -/
theorem healthy_device (fresh : Metadata) (copies : List (Option Metadata)) :
    Healthy (copies.map (deviceRead fresh)) := by
  intro read member
  obtain ⟨copied, _, rfl⟩ := List.mem_map.mp member
  cases copied <;> simp [deviceRead]

variable {reads : List DeviceRead} {m : Metadata} {seg more : List Metadata}

/-- Reading goes on until the first delimiter or ending mark, over empty reads, and
pushes the records in front of it.

The induction is on the reads. An empty read leaves the stream as it is, and a read with
a record takes the first one off: it is pushed, or it is the one that stops the reading. -/
theorem readTransaction_stops (healthy : Healthy reads)
    (stream : recordsRead reads = seg ++ m :: more)
    (inner : ∀ n ∈ seg, n.isDelim = false ∧ n.isEnding = false)
    (stops : m.isDelim = true ∨ m.isEnding = true) (tx : List Metadata) :
    ∃ rest, readTransaction tx reads =
        .returned (if m.isDelim then 0 else -1) (tx ++ seg) rest ∧
      recordsRead rest = more ∧ Healthy rest ∧ rest.length < reads.length := by
  induction reads generalizing seg tx with
  | nil => simp [recordsRead] at stream
  | cons read later ih =>
    have here : 0 ≤ read.result := healthy read List.mem_cons_self
    have others : Healthy later := fun r member => healthy r (List.mem_cons_of_mem read member)
    have nonneg : ¬ read.result < 0 := by omega
    by_cases empty : read.result = 1
    · have same : recordsRead later = seg ++ m :: more := by
        simpa [recordsRead, empty] using stream
      obtain ⟨rest, returned, records, healthy, shorter⟩ := ih others same inner tx
      refine ⟨rest, ?_, records, healthy, Nat.lt_succ_of_lt shorter⟩
      rw [readTransaction, if_neg nonneg, if_pos empty, returned]
    · have found : read.buf :: recordsRead later = seg ++ m :: more := by
        simpa [recordsRead, empty] using stream
      rw [readTransaction, if_neg nonneg, if_neg empty]
      cases seg with
      | nil =>
        obtain ⟨rfl, rfl⟩ := List.cons.inj found
        refine ⟨later, ?_, rfl, others, Nat.lt_succ_self _⟩
        simp only [Metadata.isDelim, Metadata.isEnding, decide_eq_true_eq] at stops ⊢
        rcases stops with delim | ending
        · simp [delim]
        · simp [ending]
      | cons n rest =>
        obtain ⟨rfl, same⟩ := List.cons.inj found
        obtain ⟨delim, ending⟩ := inner read.buf List.mem_cons_self
        have others' : ∀ n ∈ rest, n.isDelim = false ∧ n.isEnding = false :=
          fun n member => inner n (List.mem_cons_of_mem _ member)
        obtain ⟨after, returned, records, healthy, shorter⟩ :=
          ih others same others' (tx ++ [read.buf])
        refine ⟨after, ?_, records, healthy, Nat.lt_succ_of_lt shorter⟩
        simp only [Metadata.isDelim, Metadata.isEnding, decide_eq_false_iff_not] at delim ending
        rw [List.append_assoc] at returned
        split
        · exact absurd ‹_› delim
        · exact absurd ‹_› ending
        · exact returned

end Reads

section Framing

/-- The parts of a stream between its delimiters. -/
def transactions (body : List Metadata) : List (List Metadata) := body.splitOnP Metadata.isDelim

/-- Either no record is a delimiter, or there is a first one. -/
theorem exists_first_delim (body : List Metadata) :
    (∀ m ∈ body, m.isDelim = false) ∨
      ∃ seg m more, body = seg ++ m :: more ∧ m.isDelim = true ∧ ∀ n ∈ seg, n.isDelim = false := by
  induction body with
  | nil => exact Or.inl fun m member => absurd member List.not_mem_nil
  | cons n rest ih =>
    cases delim : n.isDelim with
    | true => exact Or.inr ⟨[], n, rest, rfl, delim, fun m member => absurd member List.not_mem_nil⟩
    | false =>
      rcases ih with none | ⟨seg, m, more, rfl, first, before⟩
      · exact Or.inl (List.forall_mem_cons.mpr ⟨delim, none⟩)
      · exact Or.inr ⟨n :: seg, m, more, rfl, first, List.forall_mem_cons.mpr ⟨delim, before⟩⟩

/-- A stream is read transaction by transaction. -/
theorem transactions_induction {motive : List Metadata → Prop}
    (last : ∀ seg, (∀ m ∈ seg, m.isDelim = false) → motive seg)
    (next : ∀ seg m more, m.isDelim = true → (∀ n ∈ seg, n.isDelim = false) → motive more →
      motive (seg ++ m :: more)) (body : List Metadata) : motive body := by
  induction length : body.length using Nat.strongRecOn generalizing body with
  | ind size ih =>
    rcases exists_first_delim body with none | ⟨seg, m, more, rfl, first, before⟩
    · exact last body none
    · apply next seg m more first before
      apply ih more.length _ more rfl
      rw [← length, List.length_append, List.length_cons]
      omega

/-- Without a delimiter there is one transaction. -/
theorem transactions_last {seg : List Metadata} (inner : ∀ m ∈ seg, m.isDelim = false) :
    transactions seg = [seg] := List.splitOnP_eq_singleton inner

/-- The first delimiter ends the first transaction. -/
theorem transactions_next {seg : List Metadata} {m : Metadata} (delim : m.isDelim = true)
    (inner : ∀ n ∈ seg, n.isDelim = false) (more : List Metadata) :
    transactions (seg ++ m :: more) = seg :: transactions more := by
  rw [transactions, List.splitOnP_append_cons_of_forall_mem inner m delim]
  rfl

/-- There is always a last transaction, which may be empty. -/
theorem transactions_ne_nil (body : List Metadata) : transactions body ≠ [] :=
  List.splitOnP_ne_nil Metadata.isDelim body

/-- The transactions hold every record but the delimiters, in order. -/
theorem flatten_transactions (body : List Metadata) :
    (transactions body).flatten = body.filter fun m => !m.isDelim := by
  induction body using transactions_induction with
  | last seg inner =>
    rw [transactions_last inner, List.flatten_singleton]
    symm
    apply List.filter_eq_self.mpr
    intro m member
    rw [inner m member, Bool.not_false]
  | next seg m more delim inner ih =>
    have whole : seg.filter (fun n => !n.isDelim) = seg := by
      apply List.filter_eq_self.mpr
      intro n member
      rw [inner n member, Bool.not_false]
    rw [transactions_next delim inner, List.flatten_cons, ih, List.filter_append, whole]
    simp [delim]

/-- The last transaction is empty exactly when a delimiter ends the stream, or the
stream has no record. -/
theorem flatten_dropLast_transactions_iff (body : List Metadata) :
    (transactions body).dropLast.flatten = (transactions body).flatten ↔
      ∀ m, body.getLast? = some m → m.isDelim = true := by
  induction body using transactions_induction with
  | last seg inner =>
    rw [transactions_last inner]
    cases final : seg.getLast? with
    | none => simp [List.getLast?_eq_none_iff.mp final]
    | some m =>
      have member : m ∈ seg := List.mem_of_getLast? final
      apply iff_of_false
      · intro none
        rw [List.dropLast_singleton, List.flatten_nil, List.flatten_singleton] at none
        exact List.ne_nil_of_mem member none.symm
      · intro delim
        have ends := delim m rfl
        rw [inner m member] at ends
        cases ends
  | next seg m more delim inner ih =>
    rw [transactions_next delim inner, List.dropLast_cons_of_ne_nil (transactions_ne_nil more)]
    simp only [List.flatten_cons, List.append_cancel_left_eq, ih]
    cases more with
    | nil => simp [delim]
    | cons n rest => simp [List.getLast?_append, List.getLast?_cons_cons]

end Framing

section Client

variable {reads : List DeviceRead} {body later : List Metadata} {last : Metadata}

/-- With a round for every read, the loop hands over every transaction that a delimiter
ends. The induction follows the transactions: a round reads one of them, and the one in
front of the ending mark leaves the loop without being handed over. -/
theorem mainLoop_eq (inner : ∀ m ∈ body, m.isEnding = false) (ending : last.isEnding = true)
    {rounds : Nat} (enough : reads.length < rounds) (healthy : Healthy reads)
    (stream : recordsRead reads = body ++ last :: later) :
    mainLoop rounds reads = some (transactions body).dropLast := by
  induction body using transactions_induction generalizing rounds reads with
  | last seg clean =>
    obtain ⟨rounds, rfl⟩ := Nat.exists_eq_add_one_of_ne_zero (Nat.ne_zero_of_lt enough)
    obtain ⟨rest, returned, _⟩ := readTransaction_stops healthy stream
      (fun n member => ⟨clean n member, inner n member⟩) (Or.inr ending) []
    have other : last.isDelim = false := by
      simp_all [Metadata.isDelim, Metadata.isEnding]
    rw [mainLoop, returned, transactions_last clean, other]
    rfl
  | next seg m more delim clean ih =>
    obtain ⟨rounds, rfl⟩ := Nat.exists_eq_add_one_of_ne_zero (Nat.ne_zero_of_lt enough)
    rw [List.append_assoc, List.cons_append] at stream
    have before (n : Metadata) (member : n ∈ seg) : n.isEnding = false :=
      inner n (List.mem_append_left _ member)
    have behind (n : Metadata) (member : n ∈ more) : n.isEnding = false :=
      inner n (List.mem_append_right _ (List.mem_cons_of_mem _ member))
    obtain ⟨rest, returned, records, healthy, shorter⟩ := readTransaction_stops healthy stream
      (fun n member => ⟨clean n member, before n member⟩) (Or.inl delim) []
    have rest := ih behind (show rest.length < rounds by omega) healthy records
    rw [mainLoop, returned, transactions_next delim clean,
      List.dropLast_cons_of_ne_nil (transactions_ne_nil more)]
    simp [delim, rest]

/-- The client hands over every transaction that a delimiter ends, and none else. -/
theorem clientMain_eq (healthy : Healthy reads) (inner : ∀ m ∈ body, m.isEnding = false)
    (ending : last.isEnding = true) (stream : recordsRead reads = body ++ last :: later) :
    clientMain reads = some (transactions body).dropLast :=
  mainLoop_eq inner ending (Nat.lt_succ_self _) healthy stream

/-- From the kernel thread to the checker: when all that one thread has written up to
its ending mark has been read, the client hands over the transactions that the thread
has ended with a delimiter. An uninterrupted thread loses no record, so the client has
received the first of the records that were written. -/
theorem clientMain_of_single_writer {actions : List (FifoAction Unit)} {s : KernelFifo Unit}
    (ran : run KernelFifo.step KernelFifo.initial actions = some s)
    (uninterrupted : FifoAction.signal () ∉ actions)
    (written : KernelFifo.passedBy () actions = body ++ last :: later)
    (inner : ∀ m ∈ body, m.isEnding = false) (ending : last.isEnding = true)
    (arrived : body.length < s.received.length) (fresh : Metadata) :
    clientMain (s.reads.map (deviceRead fresh)) = some (transactions body).dropLast := by
  have order := (KernelFifo.single_writer_order ran uninterrupted).2
  rw [written, List.append_assoc] at order
  have prefixes : body ++ [last] <+: s.received := by
    apply List.prefix_of_prefix_length_le (List.prefix_append (body ++ [last]) later)
    · rw [List.append_assoc, List.singleton_append, ← order]
      exact List.prefix_append _ _
    · rw [List.length_append, List.length_singleton]
      exact arrived
  obtain ⟨rest, split⟩ := prefixes
  rw [List.append_assoc, List.singleton_append] at split
  exact clientMain_eq (healthy_device fresh s.reads) inner ending
    ((recordsRead_device fresh s.reads).trans split.symm)

/-- The traces hold every record of the stream but the delimiters, in order, and
are cut at the delimiters. An empty transaction behind the last delimiter need not
be handed over. -/
def Framed (body : List Metadata) (traces : List (List Metadata)) : Prop :=
  traces.flatten = body.filter (fun m => !m.isDelim) ∧
    (traces = transactions body ∨ traces = (transactions body).dropLast)

/-- The client checks all records of a stream exactly when no record stands between the
last delimiter and the ending mark. It hands over all transactions but the last, so all
records are among them exactly if the last one is empty. -/
theorem client_checks_stream_iff (healthy : Healthy reads)
    (inner : ∀ m ∈ body, m.isEnding = false) (ending : last.isEnding = true)
    (stream : recordsRead reads = body ++ last :: later) :
    (∃ traces, clientMain reads = some traces ∧ Framed body traces) ↔
      ∀ m, body.getLast? = some m → m.isDelim = true := by
  rw [← flatten_dropLast_transactions_iff, flatten_transactions,
    clientMain_eq healthy inner ending stream]
  constructor
  · rintro ⟨traces, same, framed⟩
    rw [Option.some.inj same]
    exact framed.1
  · intro whole
    exact ⟨_, rfl, whole, Or.inr rfl⟩

/-- Two transactions with an empty read in between, each ended by a delimiter. -/
def delimitedReads : List DeviceRead :=
  [⟨0, { type := .assign, size := 8 }⟩, ⟨0, { type := .transactionDelim }⟩,
    ⟨1, { type := .fence }⟩, ⟨0, { type := .fence }⟩, ⟨0, { type := .transactionDelim }⟩,
    ⟨0, { type := .ending }⟩]

/-- Both transactions of these reads are handed over. -/
theorem client_checks_delimited_reads :
    ∃ traces, clientMain delimitedReads = some traces ∧
      Framed [{ type := .assign, size := 8 }, { type := .transactionDelim }, { type := .fence },
        { type := .transactionDelim }] traces := by
  have healthy : Healthy delimitedReads := by
    unfold Healthy
    decide
  have checked := client_checks_stream_iff healthy (by decide) rfl
    (show recordsRead delimitedReads = [{ type := .assign, size := 8 },
      { type := .transactionDelim }, { type := .fence }, { type := .transactionDelim }] ++
        [{ type := .ending }] from rfl)
  apply checked.mpr
  rintro m ⟨⟩
  rfl

/-- A record behind the last delimiter is read and never checked. -/
theorem last_transaction_dropped :
    clientMain [⟨0, { type := .persist, size := 8 }⟩, ⟨0, { type := .ending }⟩] = some [] ∧
      ¬ Framed [{ type := .persist, size := 8 }] [] := by
  unfold Framed
  decide

end Client

end PMTest
