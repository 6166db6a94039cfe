import PMTest.KernelClient
import PMTest.Segments
import PMTest.Shutdown
import PMTest.Submissions
import PMTest.UnsetFields

/-!
# From the kernel to the verdicts

A kernel thread calls the recorders of the module, which build a record on the stack
and write it to the FIFO. The client process reads the records back, keeps each in a
buffer of its own, collects the buffers of a transaction and hands them to the pool,
whose workers check them at the same time. After the ending mark it waits for the
results, deletes buffers and transactions and leaves.

The whole system is one state machine: the kernel module, `main` of the client and its
heap, and the pool. A pointer to a buffer is its position among all allocated ones. A
check reads the buffers of its trace and rewrites some of them in place.

A signal may interrupt a wait of the kernel thread. Copying to the process does not
fail.
-/

namespace PMTest

open Transitions Lookahead

section Kernel

/-- The kernel module: the flag, and the FIFO with what is at its two ends. -/
structure KernelModule where
  existVeriInstance : Bool
  fifo : KernelFifo Unit

namespace KernelModule

/-- The body of a recorder: with tracking on, its record goes to `PMTestFifoWrite`. -/
def createMetadata (s : KernelModule) (m : Metadata) : Option KernelModule :=
  if s.existVeriInstance then
    (s.fifo.step (.write () m)).map fun fifo => { s with fifo := fifo }
  else some s

variable (s : KernelModule) (unset : Metadata) (addr size : Nat) (fileName : List Char)
  (lineNum : Nat)

-- As in the tested program, the recorders differ in their type and their ranges. The
-- stack may hold anything before.
/-- The recorder `kC_createMetadata_Assign`, with its record on the stack of the caller. -/
def kCCreateMetadataAssign : Option KernelModule :=
  s.createMetadata (setMetadataRange unset .assign addr size fileName lineNum)

/-- The recorder `kC_createMetadata_Flush`. -/
def kCCreateMetadataFlush : Option KernelModule :=
  s.createMetadata (setMetadataRange unset .flush addr size fileName lineNum)

/-- The recorder `kC_createMetadata_Commit`. -/
def kCCreateMetadataCommit : Option KernelModule :=
  s.createMetadata (setMetadata unset .commit fileName lineNum)

/-- The recorder `kC_createMetadata_Barrier`. -/
def kCCreateMetadataBarrier : Option KernelModule :=
  s.createMetadata (setMetadata unset .barrier fileName lineNum)

/-- The recorder `kC_createMetadata_Fence`. -/
def kCCreateMetadataFence : Option KernelModule :=
  s.createMetadata (setMetadata unset .fence fileName lineNum)

/-- The recorder `kC_createMetadata_Persist`. -/
def kCCreateMetadataPersist : Option KernelModule :=
  s.createMetadata (setMetadataRange unset .persist addr size fileName lineNum)

/-- The recorder `kC_createMetadata_Order`, the one with two ranges. -/
def kCCreateMetadataOrder (addr size addrLate sizeLate : Nat) (fileName : List Char)
    (lineNum : Nat) : Option KernelModule :=
  s.createMetadata (setMetadataRanges unset .order addr size addrLate sizeLate fileName lineNum)

/-- The recorder `kC_createMetadata_TransactionBegin`. -/
def kCCreateMetadataTransactionBegin : Option KernelModule :=
  s.createMetadata (setMetadata unset .transactionBegin fileName lineNum)

/-- The recorder `kC_createMetadata_TransactionEnd`. -/
def kCCreateMetadataTransactionEnd : Option KernelModule :=
  s.createMetadata (setMetadata unset .transactionEnd fileName lineNum)

/-- The recorder `kC_createMetadata_TransactionAdd`. -/
def kCCreateMetadataTransactionAdd : Option KernelModule :=
  s.createMetadata (setMetadataRange unset .transactionAdd addr size fileName lineNum)

/-- The recorder `kC_createMetadata_Exclude`. -/
def kCCreateMetadataExclude : Option KernelModule :=
  s.createMetadata (setMetadataRange unset .exclude addr size fileName lineNum)

/-- The recorder `kC_createMetadata_Include`. -/
def kCCreateMetadataInclude : Option KernelModule :=
  s.createMetadata (setMetadataRange unset .reinclude addr size fileName lineNum)

-- The two marks have no position in a file.
/-- The mark behind a transaction. Only the type of the record is set. -/
def kCCreateMetadataTransactionDelim : Option KernelModule :=
  s.createMetadata { unset with type := .transactionDelim }

/-- The mark that ends the session of the client. -/
def kCCreateMetadataEnding : Option KernelModule :=
  s.createMetadata { unset with type := .ending }

/-- A recording call. -/
def create : Recording → Option KernelModule
  | .assign addr size file line => s.kCCreateMetadataAssign unset addr size file line
  | .flush addr size file line => s.kCCreateMetadataFlush unset addr size file line
  | .commit file line => s.kCCreateMetadataCommit unset file line
  | .barrier file line => s.kCCreateMetadataBarrier unset file line
  | .fence file line => s.kCCreateMetadataFence unset file line
  | .persist addr size file line => s.kCCreateMetadataPersist unset addr size file line
  | .order addr size addrLate sizeLate file line =>
      s.kCCreateMetadataOrder unset addr size addrLate sizeLate file line
  | .transactionBegin file line => s.kCCreateMetadataTransactionBegin unset file line
  | .transactionEnd file line => s.kCCreateMetadataTransactionEnd unset file line
  | .transactionAdd addr size file line =>
      s.kCCreateMetadataTransactionAdd unset addr size file line
  | .exclude addr size file line => s.kCCreateMetadataExclude unset addr size file line
  | .reinclude addr size file line => s.kCCreateMetadataInclude unset addr size file line

end KernelModule

/-- What the kernel thread does, with the contents of its stack. -/
inductive KernelCall
  | pmtestStart
  | pmtestEnd
  | create (unset : Metadata) (recording : Recording)
  | transactionDelim (unset : Metadata)
  | ending (unset : Metadata)
  deriving DecidableEq, Repr

/-- A call of the kernel thread. -/
def KernelModule.call (s : KernelModule) : KernelCall → Option KernelModule
  | .pmtestStart => some { s with existVeriInstance := true }
  | .pmtestEnd => some { s with existVeriInstance := false }
  | .create unset recording => s.create unset recording
  | .transactionDelim unset => s.kCCreateMetadataTransactionDelim unset
  | .ending unset => s.kCCreateMetadataEnding unset

/-- The record that a call makes if tracking is on. -/
def KernelCall.record : KernelCall → Option Metadata
  | pmtestStart | pmtestEnd => none
  | create unset recording => some (recording.stores unset)
  | transactionDelim unset => some { unset with type := .transactionDelim }
  | ending unset => some { unset with type := .ending }

/-- Whether tracking is on, and the records made so far. -/
structure KernelLedger where
  tracking : Bool
  written : List Metadata

/-- A call in the ledger. -/
def KernelLedger.add (l : KernelLedger) (call : KernelCall) : KernelLedger :=
  match call with
  | .pmtestStart => { l with tracking := true }
  | .pmtestEnd => { l with tracking := false }
  | _ => if l.tracking then { l with written := l.written ++ call.record.toList } else l

/-- What the calls mean. -/
def kernelLedger (calls : List KernelCall) : KernelLedger := calls.foldl .add ⟨false, []⟩

/-- A call is added to the ledger of the calls before it. -/
theorem kernelLedger_concat (calls : List KernelCall) (call : KernelCall) :
    kernelLedger (calls ++ [call]) = (kernelLedger calls).add call := by
  rw [kernelLedger, List.foldl_append]
  rfl

/-- The recorders of the module make the same records as those of the tested program. -/
theorem KernelModule.create_eq (s : KernelModule) (unset : Metadata) (recording : Recording) :
    s.create unset recording = s.createMetadata (recording.stores unset) := by
  cases recording <;> rfl

end Kernel

section Model

/-- Where `main` of the client is. -/
inductive MainPc
  /-- In `read_transaction`, in front of the allocation of a buffer. -/
  | allocate
  /-- In the call of `read`. -/
  | read
  /-- `read_transaction` has returned. -/
  | returned (flag : Int)
  /-- In `execVeri`. -/
  | submit
  /-- In `getVeri`. -/
  | collect
  /-- In the loop that deletes the buffers. -/
  | deleteRecords (i : Nat)
  /-- In the loop that deletes the transactions. -/
  | deleteTraces (i : Nat)
  /-- In the destructor of the instance. -/
  | destroy
  deriving DecidableEq, Repr

/-- The kernel module, the client and the pool. The jobs of the pool are positions in
`txVector`. The number of deleted buffers and transactions is part of the heap, and the
last two fields are the history: the records `read_transaction` has looked at, and what
every check has printed. -/
structure KernelSession where
  kernel : KernelModule
  pc : MainPc
  allocated : List Metadata
  tx : List Ptr
  txVector : List (List Ptr)
  deletedRecords : Nat
  deletedTraces : Nat
  pool : Pool Unit Nat
  handled : List Metadata
  printed : List (Nat × Verdict)

/-- What may happen next: the kernel thread makes a call or goes on inside one, a signal
ends its wait, the client allocates a buffer or does something else, or a worker goes
on. -/
inductive KernelAction
  | call (call : KernelCall)
  | writer
  | signal
  | allocate (fresh : Metadata)
  | client
  | worker (id : Nat)
  deriving DecidableEq, Repr

/-- What a buffer holds. -/
def contentsAt (allocated : List Metadata) (p : Ptr) : Metadata :=
  allocated.getD p { type := .ending }

namespace KernelSession

/-- The client starts to read, with tracking off. -/
def initial (pool : Pool Unit Nat) : KernelSession where
  kernel := ⟨false, .initial⟩
  pc := .allocate
  allocated := []
  tx := []
  txVector := []
  deletedRecords := 0
  deletedTraces := 0
  pool := pool
  handled := []
  printed := []

/-- `read` has returned: an empty read is repeated, and the first mark ends
`read_transaction`. The last buffer is the one that was read into. -/
def receive (s : KernelSession) : Option Metadata → KernelSession
  | none => { s with pc := .allocate }
  | some m =>
      let buf := s.allocated.length - 1
      let filled := { s with
        allocated := s.allocated.set buf m
        handled := s.handled ++ [m] }
      match m.type with
      | .transactionDelim => { filled with pc := .returned 0 }
      | .ending => { filled with pc := .returned (-1) }
      | _ => { filled with tx := s.tx ++ [buf], pc := .allocate }

variable (N : Nat)

/-- The next step of the client. -/
def clientStep (s : KernelSession) : Option KernelSession :=
  match s.pc with
  | .allocate => none
  | .read =>
      (s.kernel.fifo.step .reader).map fun fifo =>
        let next := { s with kernel := { s.kernel with fifo := fifo } }
        match s.kernel.fifo.reader with
        | .done copied => next.receive copied
        | _ => next
  | .returned flag =>
      if flag = -1 then
        (s.pool.step N (.getVeri () [])).map fun pool =>
          { s with pool := pool, txVector := s.txVector ++ [s.tx], tx := [], pc := .collect }
      else
        (s.pool.step N (.execVeri () s.txVector.length)).map fun pool =>
          { s with pool := pool, txVector := s.txVector ++ [s.tx], tx := [], pc := .submit }
  | .submit =>
      (s.pool.step N (.client ())).map fun pool =>
        { s with pool := pool, pc := if pool.client () = .outside then .allocate else .submit }
  | .collect =>
      (s.pool.step N (.client ())).map fun pool =>
        { s with
          pool := pool
          pc := if pool.client () = .outside then .deleteRecords 0 else .collect }
  | .deleteRecords i =>
      if i < s.txVector.length then
        -- the index is not compared with the number of buffers
        if i < s.allocated.length then
          some { s with deletedRecords := i + 1, pc := .deleteRecords (i + 1) }
        else none
      else some { s with pc := .deleteTraces 0 }
  | .deleteTraces i =>
      if i < s.txVector.length then
        some { s with deletedTraces := i + 1, pc := .deleteTraces (i + 1) }
      else (s.pool.step N (.termVeri ())).map fun pool => { s with pool := pool, pc := .destroy }
  | .destroy => (s.pool.step N (.client ())).map fun pool => { s with pool := pool }

variable (icl : Icl) (warn : Bool)

/-- A worker checks its trace. Nobody else uses the buffers of a trace that was passed
to the pool, so they are read and rewritten at once. A check that would read anything
deleted has no next state. -/
def checkStep (s : KernelSession) (id : Nat) (job : Job Nat) : Option KernelSession :=
  let veriptr := s.txVector.getD job.input []
  if job.input < s.deletedTraces ∨ ∃ p ∈ veriptr, p < s.deletedRecords then none
  else
    let outcome := veriProc icl warn (contentsAt s.allocated) veriptr
    (s.pool.step N (.worker id)).map fun pool =>
      { s with
        allocated := (List.range s.allocated.length).map outcome.memory
        pool := pool
        printed := s.printed ++
          [(job.input, ⟨outcome.stdout.map Line.report, outcome.transactionEndError⟩)] }

/-- One step of the whole system. -/
def step (s : KernelSession) : KernelAction → Option KernelSession
  | .call call =>
      if s.kernel.fifo.writer () = .outside then
        (s.kernel.call call).map fun kernel => { s with kernel := kernel }
      else none
  | .writer =>
      (s.kernel.fifo.step (.writer ())).map fun fifo =>
        { s with kernel := { s.kernel with fifo := fifo } }
  | .signal =>
      (s.kernel.fifo.step (.signal ())).map fun fifo =>
        { s with kernel := { s.kernel with fifo := fifo } }
  | .allocate fresh =>
      if s.pc = .allocate then
        (s.kernel.fifo.step .read).map fun fifo =>
          { s with
            kernel := { s.kernel with fifo := fifo }
            allocated := s.allocated ++ [fresh]
            pc := .read }
      else none
  | .client => s.clientStep N
  | .worker id =>
      match s.pool.worker id with
      | .verify job => s.checkStep N icl warn id job
      | _ => (s.pool.step N (.worker id)).map fun pool => { s with pool := pool }

end KernelSession

end Model

section Device

/-- The record that was copied to the buffer and has not been looked at. -/
def ReaderPc.inFlight : ReaderPc → List Metadata
  | testAsleep copied | testAvail copied | wakeUp copied | clearAsleep copied | done copied =>
      copied.toList
  | _ => []

namespace KernelFifo

variable {s next : KernelFifo Unit}

/-- The kernel thread and its signals do not disturb the reader. -/
theorem writer_frame {a : FifoAction Unit} (taken : s.step a = some next)
    (writes : a = .writer () ∨ a = .signal () ∨ ∃ m, a = .write () m) :
    next.reads = s.reads ∧ next.reader = s.reader := by
  cases step_moves taken with
  | read | copy | findAsleep | findAwake | findFree | findShort | wakeUp | clearAsleep
  | finish => simp at writes
  | _ => exact ⟨rfl, rfl⟩

/-- Inside `PMTestDeviceRead` one record at most is copied. -/
theorem reader_frame (taken : s.step .reader = some next)
    (inside : ∀ copied, s.reader ≠ .done copied) :
    (next.reads = s.reads ∧ next.reader.inFlight = s.reader.inFlight ∧ s.reader ≠ .copy ∧
        next.reader ≠ .copy) ∨
      (s.reader = .copy ∧ next.reads = s.reads ++ [s.fifo.head?] ∧
        next.reader = .testAsleep s.fifo.head?) := by
  cases step_moves taken with
  | copy before => exact .inr ⟨before, rfl, rfl⟩
  | finish copied before => exact absurd before (inside copied)
  | findAsleep copied before | findAwake copied before | findFree copied before
  | findShort copied before | wakeUp copied before | clearAsleep copied before =>
    exact .inl ⟨rfl, by rw [before]; rfl, by simp [before], by simp⟩

/-- A call of the reader begins with the copy, and its last step returns the copy. -/
theorem read_begins (taken : s.step .read = some next) :
    s.reader = .outside ∧ next = { s with reader := .copy } := by
  cases step_moves taken with
  | read before => exact ⟨before, rfl⟩

/-- The last step of the reader returns and changes nothing else. -/
theorem read_ends {copied : Option Metadata} (done : s.reader = .done copied)
    (taken : s.step .reader = some next) : next = { s with reader := .outside } := by
  cases step_moves taken with
  | finish _ _ => rfl
  | copy before | findAsleep _ before | findAwake _ before | findFree _ before
  | findShort _ before | wakeUp _ before | clearAsleep _ before =>
    rw [done] at before
    cases before

end KernelFifo

end Device

namespace MainPc

/-- The last record that was looked at is a mark that has not been acted on. -/
def marked : MainPc → Bool
  | allocate | read | submit => false
  | _ => true

/-- `main` is in its loop. -/
def looping : MainPc → Bool
  | allocate | read | returned _ | submit => true
  | _ => false

/-- `getVeri` has returned. -/
def collected : MainPc → Bool
  | deleteRecords _ | deleteTraces _ | destroy => true
  | _ => false

/-- Behind `getVeri` the client is neither in its loop nor in the call. -/
theorem left_of_collected {pc : MainPc} (collected : pc.collected = true) :
    pc.looping = false ∧ pc ≠ .collect := by
  cases pc with
  | deleteRecords | deleteTraces | destroy => exact ⟨rfl, by simp⟩
  | _ => cases collected

end MainPc

namespace KernelSession

variable {icl : Icl} {warn : Bool} {N : Nat} {s next : KernelSession} {a : KernelAction}

/-- The records in front of the last mark, or all that were looked at. -/
def body (s : KernelSession) : List Metadata :=
  if s.pc.marked then s.handled.dropLast else s.handled

/-- The transactions that were begun. In the loop the last one is not in the vector. -/
def traces (s : KernelSession) : List (List Ptr) :=
  if s.pc.looping then s.txVector ++ [s.tx] else s.txVector

/-- The moves of the system. -/
inductive Moves (icl : Icl) (warn : Bool) (N : Nat) (s : KernelSession) :
    KernelAction → KernelSession → Prop
  | call {call : KernelCall} {kernel : KernelModule}
      (made : s.kernel.call call = some kernel) :
      Moves icl warn N s (.call call) { s with kernel := kernel }
  | write {fifo : KernelFifo Unit} (moved : s.kernel.fifo.step (.writer ()) = some fifo) :
      Moves icl warn N s .writer { s with kernel := { s.kernel with fifo := fifo } }
  | interrupt {fifo : KernelFifo Unit} (moved : s.kernel.fifo.step (.signal ()) = some fifo) :
      Moves icl warn N s .signal { s with kernel := { s.kernel with fifo := fifo } }
  | allocate {fresh : Metadata} {fifo : KernelFifo Unit} (here : s.pc = .allocate)
      (moved : s.kernel.fifo.step .read = some fifo) :
      Moves icl warn N s (.allocate fresh)
        { s with
          kernel := { s.kernel with fifo := fifo }
          allocated := s.allocated ++ [fresh]
          pc := .read }
  | read {fifo : KernelFifo Unit} (here : s.pc = .read)
      (inside : ∀ copied, s.kernel.fifo.reader ≠ .done copied)
      (moved : s.kernel.fifo.step .reader = some fifo) :
      Moves icl warn N s .client { s with kernel := { s.kernel with fifo := fifo } }
  | empty {fifo : KernelFifo Unit} (here : s.pc = .read)
      (done : s.kernel.fifo.reader = .done none)
      (moved : s.kernel.fifo.step .reader = some fifo) :
      Moves icl warn N s .client
        { s with kernel := { s.kernel with fifo := fifo }, pc := .allocate }
  | mark {m : Metadata} {fifo : KernelFifo Unit} (here : s.pc = .read)
      (done : s.kernel.fifo.reader = .done (some m))
      (isMark : m.isDelim = true ∨ m.isEnding = true)
      (moved : s.kernel.fifo.step .reader = some fifo) :
      Moves icl warn N s .client
        { s with
          kernel := { s.kernel with fifo := fifo }
          allocated := s.allocated.set (s.allocated.length - 1) m
          handled := s.handled ++ [m]
          pc := .returned (if m.isDelim then 0 else -1) }
  | record {m : Metadata} {fifo : KernelFifo Unit} (here : s.pc = .read)
      (done : s.kernel.fifo.reader = .done (some m))
      (other : m.isDelim = false ∧ m.isEnding = false)
      (moved : s.kernel.fifo.step .reader = some fifo) :
      Moves icl warn N s .client
        { s with
          kernel := { s.kernel with fifo := fifo }
          allocated := s.allocated.set (s.allocated.length - 1) m
          handled := s.handled ++ [m]
          tx := s.tx ++ [s.allocated.length - 1]
          pc := .allocate }
  | submit {flag : Int} {pool : Pool Unit Nat} (here : s.pc = .returned flag) (other : flag ≠ -1)
      (moved : s.pool.step N (.execVeri () s.txVector.length) = some pool) :
      Moves icl warn N s .client
        { s with pool := pool, txVector := s.txVector ++ [s.tx], tx := [], pc := .submit }
  | collect {pool : Pool Unit Nat} (here : s.pc = .returned (-1))
      (moved : s.pool.step N (.getVeri () []) = some pool) :
      Moves icl warn N s .client
        { s with pool := pool, txVector := s.txVector ++ [s.tx], tx := [], pc := .collect }
  | submitting {pool : Pool Unit Nat} (here : s.pc = .submit)
      (moved : s.pool.step N (.client ()) = some pool) :
      Moves icl warn N s .client
        { s with pool := pool, pc := if pool.client () = .outside then .allocate else .submit }
  | collecting {pool : Pool Unit Nat} (here : s.pc = .collect)
      (moved : s.pool.step N (.client ()) = some pool) :
      Moves icl warn N s .client
        { s with
          pool := pool
          pc := if pool.client () = .outside then .deleteRecords 0 else .collect }
  | deleteRecord {i : Nat} (here : s.pc = .deleteRecords i) (left : i < s.txVector.length) :
      Moves icl warn N s .client
        { s with deletedRecords := i + 1, pc := .deleteRecords (i + 1) }
  | recordsDeleted {i : Nat} (here : s.pc = .deleteRecords i)
      (counted : ¬ i < s.txVector.length) :
      Moves icl warn N s .client { s with pc := .deleteTraces 0 }
  | deleteTrace {i : Nat} (here : s.pc = .deleteTraces i) (left : i < s.txVector.length) :
      Moves icl warn N s .client { s with deletedTraces := i + 1, pc := .deleteTraces (i + 1) }
  | destroy {i : Nat} {pool : Pool Unit Nat} (here : s.pc = .deleteTraces i)
      (counted : ¬ i < s.txVector.length)
      (moved : s.pool.step N (.termVeri ()) = some pool) :
      Moves icl warn N s .client { s with pool := pool, pc := .destroy }
  | destroying {pool : Pool Unit Nat} (here : s.pc = .destroy)
      (moved : s.pool.step N (.client ()) = some pool) :
      Moves icl warn N s .client { s with pool := pool }
  | check {id : Nat} {job : Job Nat} {pool : Pool Unit Nat}
      (before : s.pool.worker id = .verify job)
      (moved : s.pool.step N (.worker id) = some pool) :
      Moves icl warn N s (.worker id)
        { s with
          allocated := (List.range s.allocated.length).map
            (veriProc icl warn (contentsAt s.allocated) (s.txVector.getD job.input [])).memory
          pool := pool
          printed := s.printed ++ [(job.input,
            ⟨(veriProc icl warn (contentsAt s.allocated)
                (s.txVector.getD job.input [])).stdout.map Line.report,
              (veriProc icl warn (contentsAt s.allocated)
                (s.txVector.getD job.input [])).transactionEndError⟩)] }
  | work {id : Nat} {pool : Pool Unit Nat} (other : ∀ job, s.pool.worker id ≠ .verify job)
      (moved : s.pool.step N (.worker id) = some pool) :
      Moves icl warn N s (.worker id) { s with pool := pool }

/-- What a finished `read` leads to: an empty read, a mark or another record, by the
type of the record. -/
theorem receive_moves {copied : Option Metadata} {fifo : KernelFifo Unit} (here : s.pc = .read)
    (done : s.kernel.fifo.reader = .done copied)
    (moved : s.kernel.fifo.step .reader = some fifo) :
    Moves icl warn N s .client
      ({ s with kernel := { s.kernel with fifo := fifo } }.receive copied) := by
  cases copied with
  | none => exact .empty here done moved
  | some m =>
    have mark := fun isMark => @Moves.mark icl warn N s m fifo here done isMark moved
    have record := fun other => @Moves.record icl warn N s m fifo here done other moved
    simp only [receive]
    cases type : m.type with
    | transactionDelim =>
      have delim : m.isDelim = true := by simp [Metadata.isDelim, type]
      simpa [delim] using mark (.inl delim)
    | ending =>
      have other : m.isDelim = false := by simp [Metadata.isDelim, type]
      simpa [other] using mark (.inr (by simp [Metadata.isEnding, type]))
    | _ => exact record (by simp [Metadata.isDelim, Metadata.isEnding, type])

/-- Every step is one of the moves, by the action and, for the client, by its position.
The steps of the kernel thread and of the workers are steps of the FIFO and of the pool,
and carry their own moves. -/
theorem step_moves (taken : s.step N icl warn a = some next) : s.Moves icl warn N a next := by
  cases a with
  | call call =>
    simp only [step] at taken
    split_ifs at taken
    obtain ⟨kernel, made, rfl⟩ := Option.map_eq_some_iff.mp taken
    exact .call made
  | writer =>
    obtain ⟨fifo, moved, rfl⟩ := Option.map_eq_some_iff.mp taken
    exact .write moved
  | signal =>
    obtain ⟨fifo, moved, rfl⟩ := Option.map_eq_some_iff.mp taken
    exact .interrupt moved
  | allocate fresh =>
    simp only [step] at taken
    split_ifs at taken with here
    obtain ⟨fifo, moved, rfl⟩ := Option.map_eq_some_iff.mp taken
    exact .allocate here moved
  | client =>
    simp only [step, clientStep] at taken
    split at taken
    case h_1 => cases taken
    case h_2 here =>
      obtain ⟨fifo, moved, rfl⟩ := Option.map_eq_some_iff.mp taken
      split
      case h_1 copied done => exact receive_moves here done moved
      case h_2 other => exact .read here other moved
    case h_3 flag here =>
      split_ifs at taken with ended
      · obtain ⟨pool, moved, rfl⟩ := Option.map_eq_some_iff.mp taken
        exact .collect (ended ▸ here) moved
      · obtain ⟨pool, moved, rfl⟩ := Option.map_eq_some_iff.mp taken
        exact .submit here ended moved
    case h_4 here =>
      obtain ⟨pool, moved, rfl⟩ := Option.map_eq_some_iff.mp taken
      exact .submitting here moved
    case h_5 here =>
      obtain ⟨pool, moved, rfl⟩ := Option.map_eq_some_iff.mp taken
      exact .collecting here moved
    case h_6 i here =>
      split_ifs at taken with left inside
      · obtain rfl := Option.some.inj taken
        exact .deleteRecord here left
      · obtain rfl := Option.some.inj taken
        exact .recordsDeleted here left
    case h_7 i here =>
      split_ifs at taken with left
      · obtain rfl := Option.some.inj taken
        exact .deleteTrace here left
      · obtain ⟨pool, moved, rfl⟩ := Option.map_eq_some_iff.mp taken
        exact .destroy here left moved
    case h_8 here =>
      obtain ⟨pool, moved, rfl⟩ := Option.map_eq_some_iff.mp taken
      exact .destroying here moved
  | worker id =>
    simp only [step] at taken
    split at taken
    · simp only [checkStep] at taken
      split_ifs at taken
      obtain ⟨pool, moved, rfl⟩ := Option.map_eq_some_iff.mp taken
      exact .check ‹_› moved
    · obtain ⟨pool, moved, rfl⟩ := Option.map_eq_some_iff.mp taken
      exact .work ‹_› moved

section Wiring

variable {past : List KernelAction}

/-- The calls of the kernel thread among the actions. -/
def calls (actions : List KernelAction) : List KernelCall :=
  actions.filterMap fun
    | .call call => some call
    | _ => none

/-- The calls of a longer run are those of the run and of its last action. -/
theorem calls_concat (past : List KernelAction) (a : KernelAction) :
    calls (past ++ [a]) = calls past ++ calls [a] := List.filterMap_append ..

/-- A call of the kernel thread is added to the ledger. -/
theorem ledger_call (past : List KernelAction) (call : KernelCall) :
    kernelLedger (calls (past ++ [.call call])) = (kernelLedger (calls past)).add call := by
  rw [calls_concat]
  exact kernelLedger_concat _ call

/-- The module has followed its calls, and the FIFO has been run on the records that
they made, with no other signals than those of the run. -/
def Wired (past : List KernelAction) (s : KernelSession) : Prop :=
  (kernelLedger (calls past)).tracking = s.kernel.existVeriInstance ∧
    ∃ actions, run KernelFifo.step .initial actions = some s.kernel.fifo ∧
      (.signal ∉ past → FifoAction.signal () ∉ actions) ∧
      KernelFifo.passedBy () actions = (kernelLedger (calls past)).written

/-- A step of the FIFO that is no call of its writer. -/
theorem Wired.fifo_step (wired : Wired past s) {fifo : KernelFifo Unit} {action : FifoAction Unit}
    (moved : s.kernel.fifo.step action = some fifo)
    (signalled : action = .signal () → a = .signal)
    (unwritten : KernelFifo.passedBy () [action] = []) (uncalled : calls [a] = [])
    (same : next.kernel = { s.kernel with fifo := fifo }) : Wired (past ++ [a]) next := by
  obtain ⟨tracking, actions, ran, free, passed⟩ := wired
  rw [Wired, calls_concat, uncalled, List.append_nil, same]
  refine ⟨tracking, actions ++ [action], (run_concat _).mpr ⟨_, ran, moved⟩, ?_, ?_⟩
  · simp only [List.mem_append, List.mem_singleton, not_or]
    rintro ⟨earlier, here⟩
    exact ⟨free earlier, fun signal => here (signalled signal.symm).symm⟩
  · rw [KernelFifo.passedBy, List.filterMap_append, ← KernelFifo.passedBy, passed]
    exact (congrArg _ unwritten).trans (List.append_nil _)

/-- A step that leaves the module alone. -/
theorem Wired.of_same (wired : Wired past s) (uncalled : calls [a] = [])
    (same : next.kernel = s.kernel) : Wired (past ++ [a]) next := by
  obtain ⟨tracking, actions, ran, free, passed⟩ := wired
  rw [Wired, calls_concat, uncalled, List.append_nil, same]
  exact ⟨tracking, actions, ran, fun quiet => free fun earlier =>
    quiet (List.mem_append_left _ earlier), passed⟩

/-- A recorder with a record. With tracking on, the record enters the FIFO and the
ledger; with tracking off, it enters neither. -/
theorem Wired.create (wired : Wired past s) {call : KernelCall} {m : Metadata}
    {kernel : KernelModule} (made : s.kernel.createMetadata m = some kernel)
    (added : ∀ l : KernelLedger, l.add call =
      if l.tracking then { l with written := l.written ++ [m] } else l) :
    Wired (past ++ [.call call]) { s with kernel := kernel } := by
  obtain ⟨tracking, actions, ran, free, passed⟩ := wired
  rw [Wired, ledger_call, added]
  unfold KernelModule.createMetadata at made
  split_ifs at made with on
  · obtain ⟨fifo, moved, rfl⟩ := Option.map_eq_some_iff.mp made
    rw [tracking, if_pos on]
    refine ⟨rfl, actions ++ [.write () m], (run_concat _).mpr ⟨_, ran, moved⟩, ?_, ?_⟩
    · simpa using free
    · rw [KernelFifo.passedBy, List.filterMap_append, ← KernelFifo.passedBy, passed]
      rfl
  · obtain rfl := Option.some.inj made
    rw [tracking, if_neg on]
    exact ⟨tracking, actions, ran, by simpa using free, passed⟩

/-- Every move keeps the module and the FIFO in step with the calls. The calls of the
kernel thread are those that the ledger reads; all other moves are steps inside the
FIFO, or leave the module alone. -/
theorem Wired.moves (wired : Wired past s) (move : s.Moves icl warn N a next) :
    Wired (past ++ [a]) next := by
  cases move with
  | @call call kernel made =>
    cases call with
    | pmtestStart | pmtestEnd =>
      obtain ⟨_, actions, ran, free, passed⟩ := wired
      obtain rfl := Option.some.inj made
      rw [Wired, ledger_call]
      exact ⟨rfl, actions, ran, by simpa using free, passed⟩
    | create unset recording =>
      rw [KernelModule.call, KernelModule.create_eq] at made
      exact wired.create made fun _ => rfl
    | transactionDelim unset => exact wired.create made fun _ => rfl
    | ending unset => exact wired.create made fun _ => rfl
  | write moved | allocate _ moved | read _ _ moved | empty _ _ moved | mark _ _ _ moved
  | record _ _ _ moved => exact wired.fifo_step moved (by simp) rfl rfl rfl
  | interrupt moved => exact wired.fifo_step moved (fun _ => rfl) rfl rfl rfl
  | _ => exact wired.of_same rfl rfl

end Wiring

section Reading

/-- What the client has looked at is what it has received but for the record in
flight, and it has one buffer for every read. -/
structure Reading (s : KernelSession) : Prop where
  received : s.kernel.fifo.received = s.handled ++ s.kernel.fifo.reader.inFlight
  outside : s.pc ≠ .read → s.kernel.fifo.reader = .outside
  buffers : s.allocated.length =
    s.kernel.fifo.reads.length + if s.kernel.fifo.reader = .copy then 1 else 0

/-- The kernel thread does not disturb it. -/
theorem Reading.write (reading : s.Reading) {fifo : KernelFifo Unit} {action : FifoAction Unit}
    (moved : s.kernel.fifo.step action = some fifo)
    (writes : action = .writer () ∨ action = .signal () ∨ ∃ m, action = .write () m) {on : Bool} :
    { s with kernel := ⟨on, fifo⟩ }.Reading := by
  obtain ⟨received, outside, buffers⟩ := reading
  obtain ⟨reads, reader⟩ := KernelFifo.writer_frame moved writes
  refine ⟨?_, ?_, ?_⟩
  · rw [KernelFifo.received, reads, reader]
    exact received
  · rw [reader]
    exact outside
  · rw [reads, reader]
    exact buffers

/-- A recorder at most enters `PMTestFifoWrite`. -/
theorem Reading.create (reading : s.Reading) {m : Metadata} {kernel : KernelModule}
    (made : s.kernel.createMetadata m = some kernel) : { s with kernel := kernel }.Reading := by
  unfold KernelModule.createMetadata at made
  split_ifs at made
  · obtain ⟨fifo, moved, rfl⟩ := Option.map_eq_some_iff.mp made
    exact reading.write moved (.inr (.inr ⟨m, rfl⟩))
  · obtain rfl := Option.some.inj made
    exact reading

/-- A finished read hands its copy over: it is no longer in flight, and it has been
looked at. -/
theorem Reading.finish (reading : s.Reading) {fifo : KernelFifo Unit} {copied : Option Metadata}
    (done : s.kernel.fifo.reader = .done copied) (moved : s.kernel.fifo.step .reader = some fifo)
    (kernel : next.kernel = { s.kernel with fifo := fifo })
    (handled : next.handled = s.handled ++ copied.toList)
    (buffers : next.allocated.length = s.allocated.length) : next.Reading := by
  have same := KernelFifo.read_ends done moved
  subst same
  refine ⟨?_, fun _ => ?_, ?_⟩
  · have received := reading.received
    rw [done] at received
    rw [kernel, handled]
    exact received.trans (List.append_nil _).symm
  · rw [kernel]
  · have counted := reading.buffers
    rw [done] at counted
    rw [kernel, buffers]
    exact counted

/-- Every move keeps the account of what was read. Only the steps of the client inside
`read` change what is received, in flight or looked at, and only the allocation adds a
buffer, for the read that follows it. -/
theorem Reading.moves (reading : s.Reading) (move : s.Moves icl warn N a next) :
    next.Reading := by
  cases move with
  | @call call kernel made =>
    cases call with
    | pmtestStart | pmtestEnd =>
      obtain rfl := Option.some.inj made
      exact ⟨reading.received, reading.outside, reading.buffers⟩
    | create unset recording =>
      rw [KernelModule.call, KernelModule.create_eq] at made
      exact reading.create made
    | transactionDelim unset => exact reading.create made
    | ending unset => exact reading.create made
  | write moved => exact reading.write moved (.inl rfl)
  | interrupt moved => exact reading.write moved (.inr (.inl rfl))
  | allocate here moved =>
    obtain ⟨outside, rfl⟩ := KernelFifo.read_begins moved
    have received := reading.received
    have buffers := reading.buffers
    rw [outside] at received buffers
    refine ⟨received, fun elsewhere => absurd rfl elsewhere, ?_⟩
    rw [List.length_append, buffers]
    rfl
  | read here inside moved =>
    obtain ⟨received, outside, buffers⟩ := reading
    refine ⟨?_, fun elsewhere => absurd here elsewhere, ?_⟩
    · rcases KernelFifo.reader_frame moved inside with ⟨reads, flight, _⟩ | ⟨copy, reads, reader⟩
      · rw [KernelFifo.received, reads, flight]
        exact received
      · rw [copy] at received
        have unread : s.kernel.fifo.reads.reduceOption = s.handled :=
          received.trans (List.append_nil _)
        rw [KernelFifo.received, reads, reader, List.reduceOption_append, unread]
        cases s.kernel.fifo.fifo.head? <;> rfl
    · rcases KernelFifo.reader_frame moved inside with ⟨reads, _, before, after⟩ |
        ⟨copy, reads, reader⟩
      · rw [if_neg before] at buffers
        rw [reads, if_neg after]
        exact buffers
      · rw [if_pos copy] at buffers
        rw [reads, reader, List.length_append]
        exact buffers
  | empty here done moved => exact reading.finish done moved rfl (List.append_nil _).symm rfl
  | mark here done isMark moved => exact reading.finish done moved rfl rfl List.length_set
  | record here done other moved => exact reading.finish done moved rfl rfl List.length_set
  | check before moved =>
    refine ⟨reading.received, reading.outside, ?_⟩
    rw [List.length_map, List.length_range]
    exact reading.buffers
  | submitting here moved | collecting here moved =>
    have outside := reading.outside (by rw [here]; simp)
    exact ⟨reading.received, fun _ => outside, reading.buffers⟩
  | submit here | collect here | deleteRecord here | recordsDeleted here | deleteTrace here
  | destroy here =>
    have outside := reading.outside (by rw [here]; simp)
    exact ⟨reading.received, fun _ => outside, reading.buffers⟩
  | destroying | work => exact ⟨reading.received, reading.outside, reading.buffers⟩

end Reading

section Submitting

variable {pool : Pool Unit Nat}

/-- A step of control inside `getVeri` stays in the call or returns from it. -/
theorem control_collecting {t : Pool Unit Nat} {pc later : ClientPc Nat}
    (control : t.Control N pc later) (collecting : pc.collecting = true) :
    later.collecting = true ∨ ∃ given merged, pc = .getReturn given merged ∧ later = .outside := by
  cases control <;> first
    | exact .inl rfl
    | exact .inr ⟨_, _, rfl, rfl⟩
    | cases collecting

/-- A step of the client in `getVeri` stays there or returns. It submits nothing on the
way. -/
theorem collecting_step {t moved : Pool Unit Nat} (taken : t.step N (.client ()) = some moved)
    (collecting : (t.client ()).collecting = true) :
    (moved.client ()).collecting = true ∨
      ∃ given merged, t.client () = .getReturn given merged ∧ moved = t.clientAt () .outside := by
  cases Pool.step_moves taken with
  | client move =>
    cases move with
    | go before control =>
      rw [before] at collecting
      rcases control_collecting control collecting with inside | ⟨given, merged, rfl, rfl⟩
      · exact .inl (by simpa using inside)
      · exact .inr ⟨given, merged, before, rfl⟩
    | signal before | clearGet before | clearCompleted before =>
      exact .inl (by simp [ClientPc.collecting])
    | spawn before | initTerm before | initGet before | initCompleted before | assign before
    | lock before | push before | unlock before | store before | terminate before =>
      rw [before] at collecting
      cases collecting

/-- The pool has been run on the transactions whose delimiter was read, and when
`getVeri` has returned it has nothing to do. -/
structure Pooled (N : Nat) (pool : Pool Unit Nat) (s : KernelSession) : Prop where
  ran : ∃ actions, run (Pool.step N) pool actions = some s.pool ∧
    Pool.passedInputs actions = List.range (s.traces.length - 1)
  checked : s.printed.map Prod.fst = s.pool.checkedInputs
  collecting : s.pc = .collect → (s.pool.client ()).collecting = true
  emptied : s.pc.collected = true → s.pool.Emptied N

namespace Pooled

/-- The jobs are positions, so no job is passed twice. -/
theorem passed_nodup {actions : List (PoolAction Unit Nat)} {count : Nat}
    (passed : Pool.passedInputs actions = List.range count) :
    (Pool.passedInputs actions).Nodup := by
  rw [passed]
  exact List.nodup_range

/-- Only transactions that were passed are checked, and none twice, which the accounts
of the pool say of its jobs. -/
theorem checks (positive : 0 < N) (constructed : pool.Constructed N) (pooled : Pooled N pool s) :
    (∀ k ∈ s.printed.map Prod.fst, k < s.traces.length - 1) ∧
    ∀ id < N, ∀ job, s.pool.worker id = .verify job →
      job.input < s.traces.length - 1 ∧ job.input ∉ s.printed.map Prod.fst := by
  obtain ⟨actions, ran, passed⟩ := pooled.ran
  obtain ⟨among, fresh⟩ := Pool.checks_of_run positive constructed ran (passed_nodup passed)
  rw [passed, ← pooled.checked] at among
  simp only [passed, ← pooled.checked, List.mem_range] at among fresh
  exact ⟨among, fresh⟩

/-- A step of the pool that is neither a submission nor a check. -/
theorem pool_step (pooled : Pooled N pool s) {action : PoolAction Unit Nat}
    {moved : Pool Unit Nat} (taken : s.pool.step N action = some moved)
    (silent : Pool.passedInputs [action] = [])
    (other : ∀ id job, action = .worker id → s.pool.worker id ≠ .verify job) :
    (∃ actions, run (Pool.step N) pool actions = some moved ∧
      Pool.passedInputs actions = List.range (s.traces.length - 1)) ∧
    s.printed.map Prod.fst = moved.checkedInputs := by
  obtain ⟨actions, ran, passed⟩ := pooled.ran
  refine ⟨⟨actions ++ [action], (run_concat _).mpr ⟨_, ran, taken⟩, ?_⟩, ?_⟩
  · rw [Pool.passedInputs_concat, silent, List.append_nil, passed]
  · rcases (Pool.step_moves taken).verified with ⟨same, _⟩ | ⟨id, job, worker, _, before, _⟩
    · rw [Pool.checkedInputs, same]
      exact pooled.checked
    · exact absurd before (other id job worker)

/-- The workers do not move the client. -/
theorem worker_step (pooled : Pooled N pool s) {id : Nat} {moved : Pool Unit Nat}
    (taken : s.pool.step N (.worker id) = some moved) :
    (s.pc = .collect → (moved.client ()).collecting = true) ∧
      (s.pc.collected = true → moved.Emptied N) := by
  constructor
  · intro here
    cases Pool.step_moves taken with
    | worker inside move =>
      rw [move.frame.1]
      exact pooled.collecting here
  · intro here
    refine (pooled.emptied here).step taken ?_ ?_
    · rintro input ⟨⟩
    · rintro output ⟨⟩

/-- In the loop there is nothing to say about `getVeri`. -/
theorem of_looping (looping : s.pc.looping = true)
    (ran : ∃ actions, run (Pool.step N) pool actions = some s.pool ∧
      Pool.passedInputs actions = List.range s.txVector.length)
    (checked : s.printed.map Prod.fst = s.pool.checkedInputs) : Pooled N pool s := by
  refine ⟨?_, checked, ?_, ?_⟩
  · rw [traces, if_pos looping, List.length_append, List.length_singleton, Nat.add_sub_cancel]
    exact ran
  · intro here
    rw [here] at looping
    cases looping
  · intro collected
    rw [(MainPc.left_of_collected collected).1] at looping
    cases looping

/-- Behind `getVeri` the pool has nothing to do. -/
theorem of_collected (collected : s.pc.collected = true)
    (ran : ∃ actions, run (Pool.step N) pool actions = some s.pool ∧
      Pool.passedInputs actions = List.range (s.txVector.length - 1))
    (checked : s.printed.map Prod.fst = s.pool.checkedInputs) (emptied : s.pool.Emptied N) :
    Pooled N pool s := by
  have left := MainPc.left_of_collected collected
  refine ⟨?_, checked, fun here => absurd here left.2, fun _ => emptied⟩
  rw [traces, left.1]
  exact ran

/-- What the pool was given, in the loop and behind it. -/
theorem ran_looping (pooled : Pooled N pool s) (looping : s.pc.looping = true) :
    ∃ actions, run (Pool.step N) pool actions = some s.pool ∧
      Pool.passedInputs actions = List.range s.txVector.length := by
  have ran := pooled.ran
  rwa [traces, if_pos looping, List.length_append, List.length_singleton,
    Nat.add_sub_cancel] at ran

/-- Behind the loop all transactions are in the vector. -/
theorem traces_of_not_looping (left : s.pc.looping = false) : s.traces = s.txVector := by
  rw [traces, left]
  rfl

/-- In the loop the one that is being read is not there yet. -/
theorem traces_of_looping (looping : s.pc.looping = true) :
    s.traces = s.txVector ++ [s.tx] := if_pos looping

/-- Every move keeps the pool in step with the client.

The moves of the kernel thread and the reads do not concern the pool. A submission
passes the position of the transaction that is added to the vector. A check prints for
the job that it has checked. The return of `getVeri` finds the pool empty, and after
that nothing is submitted any more. -/
theorem moves (constructed : pool.Constructed N) (pooled : Pooled N pool s)
    (move : s.Moves icl warn N a next) : Pooled N pool next := by
  cases move with
  | call | write | interrupt | read =>
    exact ⟨pooled.ran, pooled.checked, pooled.collecting, pooled.emptied⟩
  | allocate here | empty here | mark here | record here =>
    exact of_looping rfl (pooled.ran_looping (by rw [here]; rfl)) pooled.checked
  | @submit flag moved here other taken =>
    obtain ⟨actions, ran, passed⟩ := pooled.ran_looping (by rw [here]; rfl)
    refine of_looping rfl ⟨actions ++ [_], (run_concat _).mpr ⟨_, ran, taken⟩, ?_⟩ ?_
    · rw [Pool.passedInputs_concat, passed, List.length_append, List.length_singleton,
        List.range_succ]
      rfl
    · rcases (Pool.step_moves taken).verified with ⟨same, _⟩ | ⟨_, _, impossible, _⟩
      · rw [Pool.checkedInputs, same]
        exact pooled.checked
      · cases impossible
  | collect here taken =>
    obtain ⟨ran, checked⟩ := pooled.pool_step taken rfl (by rintro id job ⟨⟩)
    rw [traces_of_looping (by rw [here]; rfl)] at ran
    refine ⟨ran, checked, fun _ => ?_, fun impossible => by cases impossible⟩
    cases Pool.step_moves taken with
    | getVeri before => simp [ClientPc.collecting]
  | @submitting moved here taken =>
    obtain ⟨ran, checked⟩ := pooled.pool_step taken rfl (by rintro id job ⟨⟩)
    rw [traces_of_looping (by rw [here]; rfl), List.length_append] at ran
    refine of_looping ?_ ran checked
    by_cases outside : moved.client () = .outside <;> simp [outside, MainPc.looping]
  | @collecting moved here taken =>
    obtain ⟨ran, checked⟩ := pooled.pool_step taken rfl (by rintro id job ⟨⟩)
    rw [traces_of_not_looping (by rw [here]; rfl)] at ran
    rcases collecting_step taken (pooled.collecting here) with inside |
      ⟨given, merged, returned, rfl⟩
    · have stays : moved.client () ≠ .outside := by
        intro outside
        rw [outside] at inside
        cases inside
      rw [if_neg stays]
      exact ⟨ran, checked, fun _ => inside, fun impossible => by cases impossible⟩
    · -- the workers are done when `getVeri` returns, and its last step moves nobody else
      obtain ⟨actions, poolRan, _⟩ := pooled.ran
      have barrier := Pool.barrier_of_run constructed poolRan
      have quiet := barrier.settled (by rw [returned]; rfl)
      refine of_collected ?_ ran checked ⟨by simp [ClientPc.leaving],
        fun i below => (quiet i below).queue, fun i below => (quiet i below).checking⟩
      simp [MainPc.collected]
  | deleteRecord here | recordsDeleted here | deleteTrace here =>
    have ran := pooled.ran
    rw [traces_of_not_looping (by rw [here]; rfl)] at ran
    exact of_collected rfl ran pooled.checked (pooled.emptied (by rw [here]; rfl))
  | destroy here counted taken =>
    obtain ⟨ran, checked⟩ := pooled.pool_step taken rfl (by rintro id job ⟨⟩)
    rw [traces_of_not_looping (by rw [here]; rfl)] at ran
    refine of_collected rfl ran checked ((pooled.emptied (by rw [here]; rfl)).step taken ?_ ?_)
    · rintro input ⟨⟩
    · rintro output ⟨⟩
  | destroying here taken =>
    obtain ⟨ran, checked⟩ := pooled.pool_step taken rfl (by rintro id job ⟨⟩)
    rw [traces_of_not_looping (by rw [here]; rfl)] at ran
    have collected : s.pc.collected = true := by rw [here]; rfl
    refine of_collected collected ran checked ((pooled.emptied collected).step taken ?_ ?_)
    · rintro input ⟨⟩
    · rintro output ⟨⟩
  | check before taken =>
    obtain ⟨actions, ran, passed⟩ := pooled.ran
    obtain ⟨_, verified⟩ := Pool.verified_of_step before taken
    obtain ⟨collecting, emptied⟩ := pooled.worker_step taken
    refine ⟨⟨actions ++ [_], (run_concat _).mpr ⟨_, ran, taken⟩, ?_⟩, ?_, collecting, emptied⟩
    · rw [Pool.passedInputs_concat, passed]
      exact List.append_nil _
    · rw [List.map_append, pooled.checked, Pool.checkedInputs, Pool.checkedInputs, verified,
        List.map_append]
      rfl
  | work other taken =>
    obtain ⟨ran, checked⟩ := pooled.pool_step taken rfl (by
      rintro id job ⟨⟩
      exact other job)
    obtain ⟨collecting, emptied⟩ := pooled.worker_step taken
    exact ⟨ran, checked, collecting, emptied⟩

end Pooled

end Submitting

end KernelSession

end PMTest
